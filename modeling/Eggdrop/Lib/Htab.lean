import Mathlib.Data.List.Basic
import Mathlib.Data.List.Nodup

/-!
# Htab — a hash table whose keys are pointers into records

A slot keeps the hash its key had when it was inserted, a pointer to the key and a value.  A
search compares the hashes first and reads the key, in its current form, only where they agree.  A
record whose key is changed in place is no longer found under the old slot, and a slot whose
record is gone is harmless until a search has its hash.  Keys are hashed and compared up to a
folding.

* `search_spec`: what a search finds while all keys can be read.
* `del_spec`: what a deletion removes.
-/

namespace Htab

variable {η κ χ ν φ : Type*}

structure Slot (η κ ν : Type*) where
  hash : η
  key : κ
  val : ν
deriving DecidableEq

/-- Where a search ends: at a slot, at none, or at a key that cannot be read. -/
inductive Search (η κ ν : Type*) where
  | dangling
  | absent
  | at (pre : List (Slot η κ ν)) (s : Slot η κ ν) (post : List (Slot η κ ν))

/-- The same search in a table with one more slot in front. -/
def Search.after (s : Slot η κ ν) : Search η κ ν → Search η κ ν
  | .at pre t post => .at (s :: pre) t post
  | r => r

section Code

variable [DecidableEq η] [DecidableEq φ] (hash : φ → η) (fold : χ → φ) (read : κ → Option χ)

/-- The first slot with the hash of `k` and a key equal to it. -/
def search (k : χ) : List (Slot η κ ν) → Search η κ ν
  | [] => .absent
  | s :: slots =>
    if s.hash = hash (fold k) then
      match read s.key with
      | none => .dangling
      | some t => if fold t = fold k then .at [] s slots else (search k slots).after s
    else (search k slots).after s

/-- `none` if the search read a key that is gone. -/
def get (slots : List (Slot η κ ν)) (k : χ) : Option (Option ν) :=
  match search hash fold read k slots with
  | .dangling => none
  | .absent => some none
  | .at _ s _ => some (some s.val)

/-- A key that is there keeps its slot, and its pointer, and gets the new value. -/
def set (slots : List (Slot η κ ν)) (key : κ) (k : χ) (val : ν) : Option (List (Slot η κ ν)) :=
  match search hash fold read k slots with
  | .dangling => none
  | .absent => some (slots ++ [⟨hash (fold k), key, val⟩])
  | .at pre s post => some (pre ++ { s with val := val } :: post)

def del (slots : List (Slot η κ ν)) (k : χ) : Option (List (Slot η κ ν)) :=
  match search hash fold read k slots with
  | .dangling => none
  | .absent => some slots
  | .at pre _ post => some (pre ++ post)

end Code

section Search

variable [DecidableEq η] [DecidableEq φ] {hash : φ → η} {fold : χ → φ} {read : κ → Option χ}

/-- A search for `k` stops at the slot. -/
def Slot.Matches (hash : φ → η) (fold : χ → φ) (read : κ → Option χ) (k : χ)
    (s : Slot η κ ν) : Prop :=
  s.hash = hash (fold k) ∧ ∃ t, read s.key = some t ∧ fold t = fold k

variable (hash fold) in
theorem search_spec (k : χ) {slots : List (Slot η κ ν)}
    (hread : ∀ s ∈ slots, (read s.key).isSome) :
    (search hash fold read k slots = .absent ∧ ∀ s ∈ slots, ¬ s.Matches hash fold read k) ∨
    ∃ pre s post, search hash fold read k slots = .at pre s post ∧ slots = pre ++ s :: post ∧
      s.Matches hash fold read k := by
  induction slots with
  | nil => exact .inl ⟨rfl, by simp⟩
  | cons s slots ih =>
    obtain ⟨hs, hslots⟩ := List.forall_mem_cons.1 hread
    obtain ⟨t, ht⟩ := Option.isSome_iff_exists.1 hs
    by_cases hm : s.hash = hash (fold k) ∧ fold t = fold k
    · refine .inr ⟨[], s, slots, ?_, rfl, hm.1, t, ht, hm.2⟩
      simp only [search, hm.1, ht, hm.2, if_true]
    · have hskip : search hash fold read k (s :: slots) =
          (search hash fold read k slots).after s := by
        rw [search]
        by_cases hh : s.hash = hash (fold k)
        · rw [if_pos hh, ht]
          exact if_neg fun he => hm ⟨hh, he⟩
        · rw [if_neg hh]
      rw [hskip]
      rcases ih hslots with ⟨habs, hno⟩ | ⟨pre, s', post, hat, hsplit, hmatch⟩
      · refine .inl ⟨by rw [habs]; rfl, List.forall_mem_cons.2 ⟨?_, hno⟩⟩
        rintro ⟨hh, t', ht', he⟩
        rw [ht] at ht'
        obtain rfl := Option.some.inj ht'
        exact hm ⟨hh, he⟩
      · exact .inr ⟨s :: pre, s', post, by rw [hat]; rfl, by rw [hsplit]; rfl, hmatch⟩

end Search

/-! ### Tables of records -/

section Records

variable [DecidableEq η] [DecidableEq φ] {hash : φ → η} {fold : χ → φ} {read : κ → Option χ}

/-- The keys of the records can be read at their addresses. -/
def Reads (read : κ → Option χ) (recs : List (κ × χ)) : Prop := ∀ r ∈ recs, read r.1 = some r.2

variable {recs : List (κ × χ)} {slots : List (Slot η κ κ)}

variable (hash fold) in
/-- A deletion removes the slot that matches, if there is one. -/
theorem del_spec (k : χ) (hread : ∀ s ∈ slots, (read s.key).isSome) :
    ∃ slots', del hash fold read slots k = some slots' ∧
      ((slots' = slots ∧ ∀ s ∈ slots, ¬ s.Matches hash fold read k) ∨
        ∃ pre s post, slots = pre ++ s :: post ∧ slots' = pre ++ post ∧
          s.Matches hash fold read k) := by
  rcases search_spec hash fold k hread with ⟨hs, hno⟩ | ⟨pre, s, post, hs, hsplit, hm⟩
  · exact ⟨slots, by rw [del, hs], .inl ⟨rfl, hno⟩⟩
  · exact ⟨pre ++ post, by rw [del, hs], .inr ⟨pre, s, post, hsplit, rfl, hm⟩⟩

section Rebuild

variable (hash fold read)

/-- Set all records, one after the other. -/
def setAll (slots : List (Slot η κ κ)) : List (κ × χ) → Option (List (Slot η κ κ))
  | [] => some slots
  | r :: rs => (set hash fold read slots r.1 r.2 r.1).bind fun slots => setAll slots rs

variable {hash fold read}

end Rebuild

end Records

end Htab
