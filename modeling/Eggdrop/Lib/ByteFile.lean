import Mathlib.Data.List.Basic
import Mathlib.Tactic.Common
import Mathlib.Tactic.Ring

/-!
# ByteFile — reading and writing the bytes of a file at a position

* `leNat_le`: numbers in little-endian order are read back.
* `fread_append`, `fwrite_append`, `fwrite_end`: what is read and written where a part of the file
  begins.
* `fwrite_head`: a write over the first bytes of a part.
-/

open List

namespace ByteFile

/-! ### Numbers -/

/-- The low `k` bytes of a number, the lowest first. -/
def le : ℕ → ℕ → List UInt8
  | 0, _ => []
  | k + 1, n => UInt8.ofNat n :: le k (n / 256)

def leNat : List UInt8 → ℕ
  | [] => 0
  | b :: bs => b.toNat + 256 * leNat bs

@[simp] theorem length_le (k n : ℕ) : (le k n).length = k := by
  induction k generalizing n with
  | zero => rfl
  | succ k ih => rw [le, length_cons, ih]

theorem leNat_le {k n : ℕ} (h : n < 256 ^ k) : leNat (le k n) = n := by
  induction k generalizing n with
  | zero =>
    have : n = 0 := by simpa using h
    rw [this]
    rfl
  | succ k ih =>
    have hdiv : n / 256 < 256 ^ k := by
      rw [Nat.div_lt_iff_lt_mul (by decide), ← pow_succ]
      exact h
    rw [le, leNat, ih hdiv, UInt8.toNat_ofNat']
    exact Nat.mod_add_div n 256

/-! ### Bytes -/

variable {pos n : ℕ} {pre mid post data : List UInt8}

/-- The next `n` bytes from `pos`, if there are as many. -/
def fread (n pos : ℕ) (bytes : List UInt8) : Option (List UInt8) :=
  if pos + n ≤ bytes.length then some ((bytes.drop pos).take n) else none

/-- Bytes are written over those at `pos`; a gap before them is filled with zeros. -/
def fwrite (pos : ℕ) (data bytes : List UInt8) : List UInt8 :=
  bytes.take pos ++ replicate (pos - bytes.length) 0 ++ data ++ bytes.drop (pos + data.length)

/-- The file gets `n` bytes. -/
def ftruncate (n : ℕ) (bytes : List UInt8) : List UInt8 :=
  bytes.take n ++ replicate (n - bytes.length) 0

theorem fread_append (hpos : pos = pre.length) (hn : n = mid.length) :
    fread n pos (pre ++ mid ++ post) = some mid := by
  subst hpos hn
  rw [fread, if_pos (by simp), append_assoc, drop_left, take_left]

theorem fread_eof {bytes : List UInt8} (hpos : pos = bytes.length) (hn : 0 < n) :
    fread n pos bytes = none := by
  subst hpos
  rw [fread, if_neg (by omega)]

theorem fwrite_append (hpos : pos = pre.length) (hdata : mid.length = data.length) :
    fwrite pos data (pre ++ mid ++ post) = pre ++ data ++ post := by
  subst hpos
  have hgap : pre.length - (pre ++ mid ++ post).length = 0 := by
    rw [length_append, length_append]
    omega
  have hdrop : (pre ++ mid ++ post).drop (pre.length + data.length) = post := by
    rw [← hdata, ← length_append]
    exact drop_left
  have htake : (pre ++ mid ++ post).take pre.length = pre := by rw [append_assoc, take_left]
  rw [fwrite, hgap, hdrop, htake, replicate_zero, append_nil]

theorem fwrite_head (hpos : pos = pre.length) (hdata : data.length ≤ mid.length) :
    fwrite pos data (pre ++ mid ++ post) = pre ++ (data ++ mid.drop data.length) ++ post := by
  have hsplit : pre ++ mid ++ post =
      pre ++ mid.take data.length ++ (mid.drop data.length ++ post) := by
    rw [append_assoc, append_assoc, ← append_assoc (mid.take _), take_append_drop]
  rw [hsplit, fwrite_append hpos (by rw [length_take]; omega)]
  simp only [append_assoc]

theorem fwrite_end (hpos : pos = pre.length) : fwrite pos data pre = pre ++ data := by
  subst hpos
  rw [fwrite, take_length, Nat.sub_self, replicate_zero, append_nil, drop_eq_nil_of_le (by omega),
    append_nil]

theorem length_fwrite (h : pos + data.length ≤ pre.length) :
    (fwrite pos data pre).length = pre.length := by
  rw [fwrite, length_append, length_append, length_append, length_take, length_replicate,
    length_drop]
  omega

theorem take_fwrite (h : pos ≤ pre.length) :
    (fwrite pos data pre).take (pos + data.length) = pre.take pos ++ data := by
  have hgap : pos - pre.length = 0 := by omega
  have hlen : (pre.take pos ++ data).length = pos + data.length := by
    rw [length_append, length_take, Nat.min_eq_left h]
  rw [fwrite, hgap, replicate_zero, append_nil, ← hlen, take_left]

theorem ftruncate_append (hpos : n = pre.length) : ftruncate n (pre ++ post) = pre := by
  subst hpos
  rw [ftruncate, take_left, length_append, Nat.sub_eq_zero_of_le (Nat.le_add_right _ _),
    replicate_zero, append_nil]

end ByteFile
