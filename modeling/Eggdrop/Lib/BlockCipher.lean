import Mathlib.Tactic.Common

/-!
# BlockCipher — Feistel networks and cipher block chaining

A Feistel network is run back by the same rounds in the other order, with the halves changed over.
Chaining adds the block before, as it was enciphered, to each block.  The sum is any operation that
undoes itself.

* `feistel_reverse`: running a network back.
* `cbcDecrypt_cbcEncrypt`: what was chained is read.
-/

namespace BlockCipher

/-- An operation by which adding the same twice changes nothing. -/
structure Sum (α : Type*) where
  add : α → α → α
  add_add : ∀ x y, add (add x y) y = x

/-- Both halves at once. -/
def Sum.prod {α β : Type*} (s : Sum α) (t : Sum β) : Sum (α × β) where
  add x y := (s.add x.1 y.1, t.add x.2 y.2)
  add_add x y := Prod.ext (s.add_add x.1 y.1) (t.add_add x.2 y.2)

/-! ### Feistel networks -/

section Feistel

variable {α : Type*} (s : Sum α)

/-- One round, after which the halves change places. -/
def round (f : α → α) (x : α × α) : α × α := (s.add x.2 (f x.1), x.1)

def feistel (fs : List (α → α)) (x : α × α) : α × α := fs.foldl (fun x f => round s f x) x

theorem feistel_append (fs gs : List (α → α)) (x : α × α) :
    feistel s (fs ++ gs) x = feistel s gs (feistel s fs x) :=
  List.foldl_append

theorem round_swap_round (f : α → α) (x : α × α) :
    round s f (round s f x).swap = x.swap :=
  Prod.ext (s.add_add x.2 (f x.1)) rfl

theorem feistel_reverse (fs : List (α → α)) (x : α × α) :
    feistel s fs.reverse (feistel s fs x).swap = x.swap := by
  induction fs generalizing x with
  | nil => rfl
  | cons f fs ih =>
    have hrest : feistel s (f :: fs) x = feistel s fs (round s f x) := rfl
    rw [List.reverse_cons, feistel_append, hrest, ih]
    exact round_swap_round s f x

end Feistel

/-! ### Chaining -/

section Chain

variable {β : Type*} (s : Sum β)

def cbcEncrypt (encipher : β → β) : β → List β → List β
  | _, [] => []
  | prev, b :: bs =>
    encipher (s.add b prev) :: cbcEncrypt encipher (encipher (s.add b prev)) bs

def cbcDecrypt (decipher : β → β) : β → List β → List β
  | _, [] => []
  | prev, c :: cs => s.add (decipher c) prev :: cbcDecrypt decipher c cs

theorem length_cbcEncrypt (encipher : β → β) (prev : β) (bs : List β) :
    (cbcEncrypt s encipher prev bs).length = bs.length := by
  induction bs generalizing prev with
  | nil => rfl
  | cons b bs ih => exact congrArg (· + 1) (ih _)

theorem length_cbcDecrypt (decipher : β → β) (prev : β) (cs : List β) :
    (cbcDecrypt s decipher prev cs).length = cs.length := by
  induction cs generalizing prev with
  | nil => rfl
  | cons c cs ih => exact congrArg (· + 1) (ih _)

theorem cbcDecrypt_cbcEncrypt {encipher decipher : β → β} (h : ∀ b, decipher (encipher b) = b)
    (prev : β) (bs : List β) :
    cbcDecrypt s decipher prev (cbcEncrypt s encipher prev bs) = bs := by
  induction bs generalizing prev with
  | nil => rfl
  | cons b bs ih => rw [cbcEncrypt, cbcDecrypt, h, s.add_add, ih]

end Chain

end BlockCipher
