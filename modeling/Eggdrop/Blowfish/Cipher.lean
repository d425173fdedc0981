import Eggdrop.Base.CString
import Eggdrop.Lib.BlockCipher

/-!
# Cipher — the Blowfish cipher of blowfish.c

Sixteen rounds with the boxes that a key gives.  The tables the boxes start from are a parameter:
nothing depends on the numbers in them.  The boxes are a function of the key here, as if none were
kept.

* `blowfishDecipher_encipher`, `blowfishEncipher_decipher`: each is the inverse of the other, for all
  boxes.
* `blowfishInit_eq_none_iff`: no boxes only for a key whose length is a negative `int`.
* `exists_ofBlocks`: bytes as blocks.
-/

namespace Eggdrop.Blowfish

/-- `unsigned char`. -/
abbrev Byte := BitVec 8

/-- The two halves of a block. -/
abbrev Block := BitVec 32 × BitVec 32

/-- `bf_P` and `bf_S`. -/
structure Boxes where
  P : Vector (BitVec 32) 18
  S : Vector (Vector (BitVec 32) 256) 4

/-- Boxes of zeros. -/
def zeroBoxes : Boxes := ⟨Vector.replicate 18 0, Vector.replicate 4 (Vector.replicate 256 0)⟩

/-- Four bytes as a word, the first the highest. -/
def word (b0 b1 b2 b3 : Byte) : BitVec 32 := b0 ++ b1 ++ b2 ++ b3

/-- The byte that starts at bit `i`. -/
def byte (w : BitVec 32) (i : Nat) : Byte := w.extractLsb' i 8

/-- The bytes of a word, the highest first. -/
def bytes (w : BitVec 32) : List Byte := [byte w 24, byte w 16, byte w 8, byte w 0]

namespace Boxes

variable (bx : Boxes)

/-- `S0` to `S3`: `byte0` is the highest byte of a word. -/
def s (i : Fin 4) (b : Byte) : BitVec 32 := (bx.S.get i).get b.toFin

/-- `bf_F`. -/
def F (x : BitVec 32) : BitVec 32 :=
  ((bx.s 0 (byte x 24) + bx.s 1 (byte x 16)) ^^^ bx.s 2 (byte x 8)) + bx.s 3 (byte x 0)

/-- What `ROUND` adds to the other half. -/
def round (n : Fin 18) (b : BitVec 32) : BitVec 32 := bx.F b ^^^ bx.P.get n

end Boxes

def xor (w : Nat) : BlockCipher.Sum (BitVec w) where
  add x y := x ^^^ y
  add_add x y := by rw [BitVec.xor_assoc, BitVec.xor_self, BitVec.xor_zero]

/-- The rounds 1 to 16, of which each changes the half that the one before has read. -/
def rounds (bx : Boxes) : List (BitVec 32 → BitVec 32) :=
  [bx.round 1, bx.round 2, bx.round 3, bx.round 4, bx.round 5, bx.round 6, bx.round 7, bx.round 8,
    bx.round 9, bx.round 10, bx.round 11, bx.round 12, bx.round 13, bx.round 14, bx.round 15,
    bx.round 16]

/-- `blowfish_encipher`. -/
def blowfishEncipher (bx : Boxes) (x : Block) : Block :=
  let x := BlockCipher.feistel (xor 32) (rounds bx) (x.1 ^^^ bx.P.get 0, x.2)
  (x.2 ^^^ bx.P.get 17, x.1)

/-- `blowfish_decipher`. -/
def blowfishDecipher (bx : Boxes) (x : Block) : Block :=
  let x := BlockCipher.feistel (xor 32) (rounds bx).reverse (x.1 ^^^ bx.P.get 17, x.2)
  (x.2 ^^^ bx.P.get 0, x.1)

/-! ### The boxes of a key -/

/-- The part of a key that goes into an entry of `bf_P`. -/
def keyWord (key : List Byte) (j : Nat) : BitVec 32 :=
  let at_ (i : Nat) : Byte := key.getD ((j + i) % key.length) 0
  word (at_ 0) (at_ 1) (at_ 2) (at_ 3)

/-- The boxes that are being filled, and the last block. -/
structure Filling where
  boxes : Boxes
  data : Block

/-- The next two entries of `bf_P`. -/
def Filling.fillP (f : Filling) (i : Nat) : Filling :=
  let data := blowfishEncipher f.boxes f.data
  let P := (f.boxes.P.setIfInBounds (2 * i) data.1).setIfInBounds (2 * i + 1) data.2
  ⟨{ f.boxes with P := P }, data⟩

/-- The next two entries of `bf_S[i]`. -/
def Filling.fillS (f : Filling) (i : Fin 4) (j : Nat) : Filling :=
  let data := blowfishEncipher f.boxes f.data
  let si := ((f.boxes.S.get i).setIfInBounds (2 * j) data.1).setIfInBounds (2 * j + 1) data.2
  ⟨{ f.boxes with S := f.boxes.S.set i si }, data⟩

/-- The boxes of a key of at most 80 characters, from `initbf_P` and `initbf_S`. -/
def boxesOf (init : Boxes) (key : List Byte) : Boxes :=
  let P := if key = [] then init.P
    else init.P.mapIdx fun i p => p ^^^ keyWord key (4 * i % key.length)
  let f := (List.range 9).foldl Filling.fillP ⟨{ init with P := P }, (0, 0)⟩
  let f := (List.finRange 4).foldl (fun f i => (List.range 128).foldl (·.fillS i ·) f) f
  f.boxes

/-- `blowfish_init`; `none` where a negative number of bytes is copied. -/
def blowfishInit (init : Boxes) (key : List Byte) : Option Boxes :=
  let keybytes := toCInt key.length
  if keybytes < 0 then none else some (boxesOf init (key.take (min 80 keybytes).toNat))

/-! ### Bytes and words -/

theorem bytes_word (b0 b1 b2 b3 : Byte) : bytes (word b0 b1 b2 b3) = [b0, b1, b2, b3] := by
  have hlast (i : Nat) : byte (word b0 b1 b2 b3) (i + 8) = (b0 ++ b1 ++ b2).extractLsb' i 8 :=
    BitVec.extractLsb'_append_eq_of_le (Nat.le_add_left 8 i)
  have hmiddle (i : Nat) : (b0 ++ b1 ++ b2).extractLsb' (i + 8) 8 = (b0 ++ b1).extractLsb' i 8 :=
    BitVec.extractLsb'_append_eq_of_le (Nat.le_add_left 8 i)
  have h0 : byte (word b0 b1 b2 b3) 24 = b0 :=
    (hlast 16).trans ((hmiddle 8).trans BitVec.extractLsb'_append_eq_left)
  have h1 : byte (word b0 b1 b2 b3) 16 = b1 :=
    (hlast 8).trans ((hmiddle 0).trans BitVec.extractLsb'_append_eq_right)
  have h2 : byte (word b0 b1 b2 b3) 8 = b2 := (hlast 0).trans BitVec.extractLsb'_append_eq_right
  have h3 : byte (word b0 b1 b2 b3) 0 = b3 := BitVec.extractLsb'_append_eq_right
  rw [bytes, h0, h1, h2, h3]

theorem word_bytes (w : BitVec 32) : word (byte w 24) (byte w 16) (byte w 8) (byte w 0) = w := by
  have hjoin (i len : Nat) :
      w.extractLsb' (i + 8) len ++ w.extractLsb' i 8 = w.extractLsb' i (len + 8) :=
    BitVec.extractLsb'_append_extractLsb'_eq_extractLsb' rfl
  have h1 := hjoin 16 8
  have h2 := hjoin 8 16
  have h3 := hjoin 0 24
  show w.extractLsb' 24 8 ++ w.extractLsb' 16 8 ++ w.extractLsb' 8 8 ++ w.extractLsb' 0 8 = w
  rw [h1, h2, h3]
  exact BitVec.extractLsb'_eq_self

/-! ### Deciphering -/

theorem blowfishDecipher_encipher (bx : Boxes) (x : Block) :
    blowfishDecipher bx (blowfishEncipher bx x) = x := by
  obtain ⟨l, r⟩ := x
  have hback := BlockCipher.feistel_reverse (xor 32) (rounds bx) (l ^^^ bx.P.get 0, r)
  have hcancel (a b : BitVec 32) : a ^^^ b ^^^ b = a := (xor 32).add_add a b
  unfold blowfishDecipher blowfishEncipher
  dsimp only
  generalize BlockCipher.feistel (xor 32) (rounds bx) (l ^^^ bx.P.get 0, r) = y at hback ⊢
  rw [hcancel, show (y.2, y.1) = y.swap from rfl, hback]
  show (l ^^^ bx.P.get 0 ^^^ bx.P.get 0, r) = (l, r)
  rw [hcancel]

theorem blowfishEncipher_decipher (bx : Boxes) (x : Block) :
    blowfishEncipher bx (blowfishDecipher bx x) = x := by
  obtain ⟨l, r⟩ := x
  have hback := BlockCipher.feistel_reverse (xor 32) (rounds bx).reverse (l ^^^ bx.P.get 17, r)
  have hcancel (a b : BitVec 32) : a ^^^ b ^^^ b = a := (xor 32).add_add a b
  unfold blowfishDecipher blowfishEncipher
  dsimp only
  rw [List.reverse_reverse] at hback
  generalize BlockCipher.feistel (xor 32) (rounds bx).reverse (l ^^^ bx.P.get 17, r) = y at hback ⊢
  rw [hcancel, show (y.2, y.1) = y.swap from rfl, hback]
  show (l ^^^ bx.P.get 17 ^^^ bx.P.get 17, r) = (l, r)
  rw [hcancel]

theorem blowfishInit_eq_none_iff (init : Boxes) (key : List Byte) :
    blowfishInit init key = none ↔ toCInt key.length < 0 := by
  unfold blowfishInit
  by_cases h : toCInt key.length < 0
  · exact iff_of_true (if_pos h) h
  · refine iff_of_false (fun hnone => ?_) h
    dsimp only at hnone
    rw [if_neg h] at hnone
    cases hnone

/-! ### Blocks -/

/-- The bytes of blocks. -/
def ofBlocks (bs : List Block) : List Byte := bs.flatMap fun x => bytes x.1 ++ bytes x.2

theorem length_ofBlocks (bs : List Block) : (ofBlocks bs).length = 8 * bs.length := by
  induction bs with
  | nil => rfl
  | cons b bs ih =>
    rw [ofBlocks, List.flatMap_cons, List.length_append, ← ofBlocks, ih, List.length_cons]
    show 8 + 8 * bs.length = _
    omega

theorem ofBlocks_cons (b : Block) (bs : List Block) :
    ofBlocks (b :: bs) = bytes b.1 ++ bytes b.2 ++ ofBlocks bs :=
  List.flatMap_cons

theorem exists_ofBlocks {n : Nat} {s : List Byte} (hs : s.length = 8 * n) :
    ∃ bs : List Block, s = ofBlocks bs ∧ bs.length = n := by
  induction n generalizing s with
  | zero => exact ⟨[], List.length_eq_zero_iff.1 hs, rfl⟩
  | succ n ih =>
    match s, hs with
    | b0 :: b1 :: b2 :: b3 :: b4 :: b5 :: b6 :: b7 :: rest, hs =>
      have hrest : rest.length = 8 * n := by
        simp only [List.length_cons] at hs
        omega
      obtain ⟨bs, rfl, hlen⟩ := ih hrest
      refine ⟨(word b0 b1 b2 b3, word b4 b5 b6 b7) :: bs, ?_, congrArg (· + 1) hlen⟩
      rw [ofBlocks_cons, bytes_word, bytes_word]
      rfl

end Eggdrop.Blowfish
