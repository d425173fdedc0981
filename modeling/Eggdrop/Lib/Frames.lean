import Mathlib.Data.List.Basic
import Mathlib.Tactic.Common

/-!
# Frames — messages behind their length

A stream of messages, each behind its length in two bytes, the high one first.

* `announced_be16`: the length is read back.
* `Unfinished`: a stream that ends before the next message does, whose length is acceptable.
* `frames_prefix`: what a stream begins with.
* `frames_unique`: a stream is made of messages and an unfinished rest in one way only.
-/

open List

namespace Frames

/-- A number in two bytes. -/
def be16 (n : ℕ) : List UInt8 := [UInt8.ofNat (n / 256), UInt8.ofNat n]

def announced (hi lo : UInt8) : ℕ := hi.toNat * 256 + lo.toNat

/-- A message behind its length. -/
def frame (m : List UInt8) : List UInt8 := be16 m.length ++ m

def frames (ms : List (List UInt8)) : List UInt8 := ms.flatMap frame

/-- The beginning of a message with a length that `Ok` holds of, or of its length. -/
def Unfinished (Ok : ℕ → Prop) : List UInt8 → Prop
  | [] => True
  | [_] => True
  | hi :: lo :: body => Ok (announced hi lo) ∧ body.length < announced hi lo

variable {Ok : ℕ → Prop} {m : List UInt8} {ms ms' : List (List UInt8)} {rest rest' : List UInt8}

theorem be16_announced (hi lo : UInt8) : be16 (announced hi lo) = [hi, lo] := by
  have hlo := lo.toNat_lt
  have hdiv : announced hi lo / 256 = hi.toNat := by
    rw [announced]
    omega
  rw [be16, hdiv]
  congr 1
  · exact UInt8.ofNat_toNat
  · congr 1
    apply UInt8.toNat.inj
    rw [UInt8.toNat_ofNat', announced]
    omega

theorem announced_be16 {n : ℕ} (h : n < 65536) :
    announced (UInt8.ofNat (n / 256)) (UInt8.ofNat n) = n := by
  rw [announced, UInt8.toNat_ofNat', UInt8.toNat_ofNat']
  omega

@[simp] theorem frames_nil : frames [] = [] := rfl

@[simp] theorem frames_cons : frames (m :: ms) = frame m ++ frames ms := rfl

@[simp] theorem frames_append : frames (ms ++ ms') = frames ms ++ frames ms' := flatMap_append

theorem frame_append (m rest : List UInt8) : frame m ++ rest =
    UInt8.ofNat (m.length / 256) :: UInt8.ofNat m.length :: (m ++ rest) := rfl

theorem not_unfinished_frame (hm : m.length < 65536) : ¬ Unfinished Ok (frame m ++ rest) := by
  rw [frame_append]
  rintro ⟨-, h⟩
  rw [announced_be16 hm, length_append] at h
  omega

theorem frames_prefix :
    ∀ {ms ms' : List (List UInt8)}, (∀ m ∈ ms, m.length < 65536) → (∀ m ∈ ms', m.length < 65536) →
      Unfinished Ok rest' → frames ms ++ rest = frames ms' ++ rest' →
      ∃ ms'', ms' = ms ++ ms'' ∧ rest = frames ms'' ++ rest'
  | [], ms', _, _, _, h => ⟨ms', rfl, h⟩
  | m :: ms, [], hms, _, hrest', h => by
    rw [frames_nil, nil_append, frames_cons, append_assoc] at h
    rw [← h] at hrest'
    exact absurd hrest' (not_unfinished_frame (hms m mem_cons_self))
  | m :: ms, m' :: ms', hms, hms', hrest', h => by
    rw [frames_cons, frames_cons, append_assoc, append_assoc, frame_append, frame_append] at h
    obtain ⟨hhi, h⟩ := cons.inj h
    obtain ⟨hlo, h⟩ := cons.inj h
    have hlen : m.length = m'.length := by
      rw [← announced_be16 (hms m mem_cons_self), hhi, hlo,
        announced_be16 (hms' m' mem_cons_self)]
    obtain ⟨rfl, htail⟩ := append_inj h hlen
    obtain ⟨ms'', rfl, hrest⟩ := frames_prefix (fun m hm => hms m (mem_cons_of_mem _ hm))
      (fun m hm => hms' m (mem_cons_of_mem _ hm)) hrest' htail
    exact ⟨ms'', rfl, hrest⟩

theorem frames_unique {Ok' : ℕ → Prop} (hms : ∀ m ∈ ms, m.length < 65536)
    (hms' : ∀ m ∈ ms', m.length < 65536) (hrest : Unfinished Ok rest) (hrest' : Unfinished Ok' rest')
    (h : frames ms ++ rest = frames ms' ++ rest') : ms = ms' ∧ rest = rest' := by
  obtain ⟨ms'', rfl, rfl⟩ := frames_prefix hms hms' hrest' h
  cases ms'' with
  | nil => exact ⟨(append_nil ms).symm, rfl⟩
  | cons m ms'' =>
    rw [frames_cons, append_assoc] at hrest
    exact absurd hrest (not_unfinished_frame (hms' m (mem_append_right ms mem_cons_self)))

end Frames
