import Eggdrop.Blowfish.Ecb

/-!
# Cbc — cipher block chaining of blowfish.c

A vector of eight random bytes is put before the text, which is filled up to whole blocks, chained,
and written in base64.  Lengths are kept in an `int`.

* `cbc_roundTrip`: what is read again, whatever the length was converted to.
* `decryptStringCbc_safe_iff`: where reading stays inside the buffers.
-/

namespace Eggdrop.Blowfish

/-- `INT_MAX`. -/
def intMax : Int := 2 ^ 31 - 1

/-- An initialisation vector. -/
abbrev Iv := {v : List Byte // v.length = 8}

/-- The two halves are added to those of the block before. -/
def chain : BlockCipher.Sum Block := (xor 32).prod (xor 32)

/-! ### base64 -/

def cbcbase64 : List Byte :=
  literal "ABCDEFGHIJKLMNOPQRSTUVWXYZabcdefghijklmnopqrstuvwxyz0123456789+/="

def cbcChar (d : Nat) : Byte := cbcbase64.getD d 0

/-- `cbcbase64dec`; `none` is -1. -/
def cbcbase64dec (c : Byte) : Option Nat := cbcbase64.idxOf? c

@[grind =] def cbcEncode : List Byte → List Byte
  | [] => []
  | [a] => [cbcChar (a.toNat / 4), cbcChar (a.toNat % 4 * 16), cbcChar 64, cbcChar 64]
  | [a, b] =>
    [cbcChar (a.toNat / 4), cbcChar (a.toNat % 4 * 16 + b.toNat / 16),
      cbcChar (b.toNat % 16 * 4), cbcChar 64]
  | a :: b :: c :: rest =>
    cbcChar (a.toNat / 4) :: cbcChar (a.toNat % 4 * 16 + b.toNat / 16) ::
      cbcChar (b.toNat % 16 * 4 + c.toNat / 64) :: cbcChar (c.toNat % 64) :: cbcEncode rest

/-- The bytes of four digits, of which the last two may be `=`. -/
@[grind =] def decodeGroup (s1 s2 s3 s4 : Nat) : List Byte :=
  BitVec.ofNat 8 (s1 * 4 + s2 / 16) ::
    if s3 = 64 then []
    else BitVec.ofNat 8 (s2 * 16 + s3 / 4) ::
      if s4 = 64 then [] else [BitVec.ofNat 8 (s3 * 64 + s4)]

/-- The loop that decodes: what is in `dest`, and `dlen`.  `some none` where it is no base64. -/
@[grind =] def cbcDecodeLoop (cap : Nat) : List Byte → List Byte → Nat → Option (Option (List Byte × Nat))
  | c1 :: c2 :: c3 :: c4 :: rest, dest, dlen =>
    match cbcbase64dec c1, cbcbase64dec c2, cbcbase64dec c3, cbcbase64dec c4 with
    | some s1, some s2, some s3, some s4 =>
      if s1 = 64 ∨ s2 = 64 then some none
      else
        let bs := decodeGroup s1 s2 s3 s4
        (put cap dest bs).bind fun dest => cbcDecodeLoop cap rest dest (dlen - (3 - bs.length))
    | _, _, _, _ => some none
  | _, dest, dlen => some (some (dest, dlen))

/-! ### `encrypt_string_cbc` and `decrypt_string_cbc` -/

/-- The loop that enciphers in place.  A block that starts with a zero ends it, but for the first,
which is the vector. -/
@[grind =] def cbcEncryptLoop (bx : Boxes) : Block → Bool → List Byte → List Byte
  | prev, first, b0 :: b1 :: b2 :: b3 :: b4 :: b5 :: b6 :: b7 :: rest =>
    if b0 = 0 ∧ first = false then b0 :: b1 :: b2 :: b3 :: b4 :: b5 :: b6 :: b7 :: rest
    else
      let c := blowfishEncipher bx (chain.add (word b0 b1 b2 b3, word b4 b5 b6 b7) prev)
      bytes c.1 ++ bytes c.2 ++ cbcEncryptLoop bx c false rest
  | _, _, s => s

/-- `encrypt_string_cbc`; `none` for a buffer of a negative size or too small for the vector, and
where a size is too great for an `int`. -/
def encryptStringCbc (init : Boxes) (iv : Iv) (key str : List Byte) : Option (List Byte) :=
  let slen := toCInt (str.length + 8)
  if slen < 0 ∨ intMax < slen + 9 then none
  else
    let m := slen.toNat
    let copied := str.take m
    let s := iv.1 ++ copied ++ List.replicate (m + 1 - copied.length) 0
    if key = [] then some s
    else
      (blowfishInit init key).bind fun bx =>
        let padded := m + padding m
        let s := s.take m ++ List.replicate (padding m + 1) 0 ++ s.drop (padded + 1)
        let s := cbcEncryptLoop bx (0, 0) true s
        if intMax < padded * 2 + 2 then none
        else some (literal "*" ++ cbcEncode (s.take padded) ++ [0])

/-- The loop that deciphers in place: `left` bytes of the buffer are to be deciphered. -/
@[grind =] def cbcDecryptLoop (bx : Boxes) : Block → Nat → List Byte → Option (List Byte)
  | prev, left, b0 :: b1 :: b2 :: b3 :: b4 :: b5 :: b6 :: b7 :: rest =>
    if left = 0 then some (b0 :: b1 :: b2 :: b3 :: b4 :: b5 :: b6 :: b7 :: rest)
    else
      let c := (word b0 b1 b2 b3, word b4 b5 b6 b7)
      let x := chain.add (blowfishDecipher bx c) prev
      (cbcDecryptLoop bx c (left - 8) rest).map (bytes x.1 ++ bytes x.2 ++ ·)
  | _, left, s => if left = 0 then some s else none

/-- `decrypt_string_cbc`; `none` where a buffer is left. -/
@[grind =] def decryptStringCbc (init : Boxes) (key str : List Byte) : Option (List Byte) :=
  let slen := toCInt str.length
  if slen < 0 ∨ intMax < slen + 1 then none
  else
    let n := slen.toNat
    let s := str.take n ++ [0]
    if key = [] ∨ n % 4 ≠ 0 then some s
    else
      (blowfishInit init key).bind fun bx =>
        let size := n / 4 * 3
        (cbcDecodeLoop (size + 1) (str.take n) [] size).bind fun
          | none => some s
          | some (dest, dlen) =>
            (put (size + 1) dest [0]).bind fun dest =>
              if dlen % 8 ≠ 0 then some s
              else
                (cbcDecryptLoop bx (0, 0) dlen dest).bind fun dest =>
                  -- `memcpy` of `dlen - 8` bytes, which may be negative
                  if dlen < 8 ∨ dest.length < dlen ∨ s.length < dlen - 7 then none
                  else some ((dest.drop 8).take (dlen - 8) ++ 0 :: s.drop (dlen - 7))

/-! ### base64 is read as it was written -/

theorem cbcbase64_spec :
    ∀ d : Fin 65, cbcbase64dec (cbcChar d) = some d.val ∧ cbcChar d ≠ 0 := by
  simp only [cbcbase64dec, cbcChar, cbcbase64, literal]
  rw [String.toList_ofList]
  decide +kernel

theorem cbcbase64dec_cbcChar {d : Nat} (h : d ≤ 64) : cbcbase64dec (cbcChar d) = some d :=
  (cbcbase64_spec ⟨d, by omega⟩).1

theorem cbcChar_ne_zero {d : Nat} (h : d ≤ 64) : cbcChar d ≠ 0 :=
  (cbcbase64_spec ⟨d, by omega⟩).2

theorem ofNat_toNat_of {n : Nat} {b : Byte} (h : n % 256 = b.toNat) : BitVec.ofNat 8 n = b :=
  BitVec.eq_of_toNat_eq (by rw [BitVec.toNat_ofNat]; exact h)

theorem length_decodeGroup (s1 s2 s3 s4 : Nat) :
    1 ≤ (decodeGroup s1 s2 s3 s4).length ∧ (decodeGroup s1 s2 s3 s4).length ≤ 3 := by
  unfold decodeGroup
  split
  · simp
  split
  · simp
  · simp

section Decode

variable {cap : Nat}

theorem cbcDecodeLoop_safe {s dest : List Byte} {k dlen : Nat} (hs : s.length = 4 * k)
    (hcap : dest.length + 3 * k ≤ cap) (hdlen : dlen = dest.length + 3 * k) :
    cbcDecodeLoop cap s dest dlen = some none ∨
      ∃ d : List Byte, cbcDecodeLoop cap s dest dlen = some (some (d, d.length)) ∧
        dest.length + k ≤ d.length ∧ d.length ≤ dest.length + 3 * k := by
  induction k generalizing s dest dlen with
  | zero =>
    obtain rfl := List.length_eq_zero_iff.1 hs
    obtain rfl : dlen = dest.length := hdlen
    exact .inr ⟨dest, rfl, by omega, by omega⟩
  | succ k ih =>
    match s, hs with
    | c1 :: c2 :: c3 :: c4 :: rest, hs =>
      have hrest : rest.length = 4 * k := by
        simp only [List.length_cons] at hs
        omega
      rw [cbcDecodeLoop]
      split
      · rename_i s1 s2 s3 s4 _ _ _ _
        split
        · exact .inl rfl
        · obtain ⟨hpos, hle⟩ := length_decodeGroup s1 s2 s3 s4
          generalize decodeGroup s1 s2 s3 s4 = bs at hpos hle
          have hlen : (dest ++ bs).length = dest.length + bs.length := List.length_append
          dsimp only
          rw [put_of_le (by omega), Option.bind_some]
          have hcap' : (dest ++ bs).length + 3 * k ≤ cap := by omega
          have hdlen' : dlen - (3 - bs.length) = (dest ++ bs).length + 3 * k := by omega
          rcases ih hrest hcap' hdlen' with h | ⟨d, h, hlow, hhigh⟩
          · exact .inl h
          · exact .inr ⟨d, h, by omega, by omega⟩
      · exact .inl rfl

theorem cbcDecodeLoop_group {s1 s2 s3 s4 : Nat} (h1 : s1 < 64) (h2 : s2 < 64) (h3 : s3 ≤ 64)
    (h4 : s4 ≤ 64) {bs : List Byte} (hbs : decodeGroup s1 s2 s3 s4 = bs) {rest dest : List Byte}
    (hcap : dest.length + bs.length ≤ cap) (dlen : Nat) :
    cbcDecodeLoop cap (cbcChar s1 :: cbcChar s2 :: cbcChar s3 :: cbcChar s4 :: rest) dest dlen =
      cbcDecodeLoop cap rest (dest ++ bs) (dlen - (3 - bs.length)) := by
  rw [cbcDecodeLoop, cbcbase64dec_cbcChar (by omega), cbcbase64dec_cbcChar (by omega),
    cbcbase64dec_cbcChar h3, cbcbase64dec_cbcChar h4]
  dsimp only
  rw [if_neg (by omega), hbs, put_of_le hcap, Option.bind_some]

theorem cbcDecodeLoop_encode {bs dest : List Byte} (hcap : dest.length + bs.length ≤ cap)
    (dlen : Nat) :
    ∃ dlen', cbcDecodeLoop cap (cbcEncode bs) dest dlen = some (some (dest ++ bs, dlen')) := by
  induction bs using cbcEncode.induct generalizing dest dlen with
  | case1 => exact ⟨dlen, by rw [cbcEncode, List.append_nil]; rfl⟩
  | case2 a =>
    have ha := a.isLt
    have hbs : decodeGroup (a.toNat / 4) (a.toNat % 4 * 16) 64 64 = [a] := by
      rw [decodeGroup, if_pos rfl, ofNat_toNat_of (b := a) (by omega)]
    rw [cbcEncode, cbcDecodeLoop_group (by omega) (by omega) (by omega) (by omega) hbs hcap]
    exact ⟨_, rfl⟩
  | case3 a b =>
    have ha := a.isLt
    have hb := b.isLt
    have hbs : decodeGroup (a.toNat / 4) (a.toNat % 4 * 16 + b.toNat / 16) (b.toNat % 16 * 4) 64 =
        [a, b] := by
      rw [decodeGroup, if_neg (by omega), if_pos rfl, ofNat_toNat_of (b := a) (by omega),
        ofNat_toNat_of (b := b) (by omega)]
    rw [cbcEncode, cbcDecodeLoop_group (by omega) (by omega) (by omega) (by omega) hbs hcap]
    exact ⟨_, rfl⟩
  | case4 a b c rest ih =>
    have ha := a.isLt
    have hb := b.isLt
    have hc := c.isLt
    have hbs : decodeGroup (a.toNat / 4) (a.toNat % 4 * 16 + b.toNat / 16)
        (b.toNat % 16 * 4 + c.toNat / 64) (c.toNat % 64) = [a, b, c] := by
      rw [decodeGroup, if_neg (by omega), if_neg (by omega), ofNat_toNat_of (b := a) (by omega),
        ofNat_toNat_of (b := b) (by omega), ofNat_toNat_of (b := c) (by omega)]
    simp only [List.length_cons] at hcap
    rw [cbcEncode, cbcDecodeLoop_group (by omega) (by omega) (by omega) (by omega) hbs
      (by simp only [List.length_cons, List.length_nil]; omega)]
    have hcap' : (dest ++ [a, b, c]).length + rest.length ≤ cap := by
      simp only [List.length_append, List.length_cons, List.length_nil]
      omega
    obtain ⟨dlen', h⟩ := ih hcap' (dlen - (3 - [a, b, c].length))
    refine ⟨dlen', ?_⟩
    rw [h, List.append_assoc]
    rfl

theorem length_cbcEncode (bs : List Byte) : (cbcEncode bs).length = 4 * ((bs.length + 2) / 3) := by
  induction bs using cbcEncode.induct with
  | case1 => rfl
  | case2 a => simp [cbcEncode]
  | case3 a b => simp [cbcEncode]
  | case4 a b c rest ih =>
    simp only [cbcEncode, List.length_cons, ih]
    omega

theorem zero_notMem_cbcEncode (bs : List Byte) : 0 ∉ cbcEncode bs := by
  have hne {d : Nat} (h : d ≤ 64) : 0 ≠ cbcChar d := (cbcChar_ne_zero h).symm
  induction bs using cbcEncode.induct with
  | case1 => exact List.not_mem_nil
  | case2 a =>
    have ha := a.isLt
    simp only [cbcEncode, List.mem_cons, List.not_mem_nil, or_false, not_or]
    exact ⟨hne (by omega), hne (by omega), hne (by omega), hne (by omega)⟩
  | case3 a b =>
    have ha := a.isLt
    have hb := b.isLt
    simp only [cbcEncode, List.mem_cons, List.not_mem_nil, or_false, not_or]
    exact ⟨hne (by omega), hne (by omega), hne (by omega), hne (by omega)⟩
  | case4 a b c rest ih =>
    have ha := a.isLt
    have hb := b.isLt
    have hc := c.isLt
    simp only [cbcEncode, List.mem_cons, not_or]
    exact ⟨hne (by omega), hne (by omega), hne (by omega), hne (by omega), ih⟩

end Decode

/-! ### The loops in place -/

section Loops

variable {bx : Boxes}

theorem ofBlocks_cons_bytes (b : Block) (bs : List Block) (s : List Byte) :
    ofBlocks (b :: bs) ++ s = byte b.1 24 :: byte b.1 16 :: byte b.1 8 :: byte b.1 0 ::
      byte b.2 24 :: byte b.2 16 :: byte b.2 8 :: byte b.2 0 :: (ofBlocks bs ++ s) := by
  rw [ofBlocks_cons, List.append_assoc]
  rfl

theorem words_bytes (b : Block) : (word (byte b.1 24) (byte b.1 16) (byte b.1 8) (byte b.1 0),
    word (byte b.2 24) (byte b.2 16) (byte b.2 8) (byte b.2 0)) = b :=
  Prod.ext (word_bytes b.1) (word_bytes b.2)

theorem cbcEncryptLoop_zero (prev : Block) (s : List Byte) :
    cbcEncryptLoop bx prev false (0 :: s) = 0 :: s := by
  unfold cbcEncryptLoop
  split
  · rename_i heq
    rw [if_pos ⟨(List.cons.inj heq).1.symm, rfl⟩, ← heq]
  · rfl

theorem cbcEncryptLoop_block (prev : Block) {first : Bool} {b : Block}
    (hb : byte b.1 24 ≠ 0 ∨ first = true) (bs : List Block) (s : List Byte) :
    cbcEncryptLoop bx prev first (ofBlocks (b :: bs) ++ s) =
      ofBlocks [blowfishEncipher bx (chain.add b prev)] ++
        cbcEncryptLoop bx (blowfishEncipher bx (chain.add b prev)) false (ofBlocks bs ++ s) := by
  have hstart : ¬ (byte b.1 24 = 0 ∧ first = false) := by
    rintro ⟨hzero, hfirst⟩
    rcases hb with h | h
    · exact h hzero
    · rw [hfirst] at h
      cases h
  rw [ofBlocks_cons_bytes, cbcEncryptLoop, if_neg hstart, words_bytes]
  rfl

theorem cbcEncryptLoop_blocks {bs : List Block} (hbs : ∀ b ∈ bs, byte b.1 24 ≠ 0) (prev : Block)
    (s : List Byte) : cbcEncryptLoop bx prev false (ofBlocks bs ++ 0 :: s) =
      ofBlocks (BlockCipher.cbcEncrypt chain (blowfishEncipher bx) prev bs) ++ 0 :: s := by
  induction bs generalizing prev with
  | nil => exact cbcEncryptLoop_zero prev s
  | cons b bs ih =>
    rw [cbcEncryptLoop_block prev (.inl (hbs b List.mem_cons_self)),
      ih fun b hb => hbs b (List.mem_cons_of_mem _ hb), BlockCipher.cbcEncrypt, ofBlocks_cons,
      ofBlocks_cons, ← List.append_assoc]
    rw [show ofBlocks [] = [] from rfl, List.append_nil]

theorem cbcEncryptLoop_first {b : Block} {bs : List Block} (hbs : ∀ b ∈ bs, byte b.1 24 ≠ 0)
    (prev : Block) (s : List Byte) :
    cbcEncryptLoop bx prev true (ofBlocks (b :: bs) ++ 0 :: s) =
      ofBlocks (BlockCipher.cbcEncrypt chain (blowfishEncipher bx) prev (b :: bs)) ++ 0 :: s := by
  rw [cbcEncryptLoop_block prev (.inr rfl), cbcEncryptLoop_blocks hbs, BlockCipher.cbcEncrypt,
    ofBlocks_cons, ofBlocks_cons, ← List.append_assoc]
  rw [show ofBlocks [] = [] from rfl, List.append_nil]

theorem cbcDecryptLoop_done (prev : Block) (s : List Byte) :
    cbcDecryptLoop bx prev 0 s = some s := by
  unfold cbcDecryptLoop
  split
  · exact if_pos rfl
  · exact if_pos rfl

theorem cbcDecryptLoop_blocks (cs : List Block) (prev : Block) (s : List Byte) :
    cbcDecryptLoop bx prev (8 * cs.length) (ofBlocks cs ++ s) =
      some (ofBlocks (BlockCipher.cbcDecrypt chain (blowfishDecipher bx) prev cs) ++ s) := by
  induction cs generalizing prev with
  | nil => exact cbcDecryptLoop_done prev s
  | cons c cs ih =>
    have hleft : 8 * (c :: cs).length - 8 = 8 * cs.length := by
      rw [List.length_cons]
      omega
    have hpos : ¬ 8 * (c :: cs).length = 0 := by
      rw [List.length_cons]
      omega
    rw [ofBlocks_cons_bytes, cbcDecryptLoop, if_neg hpos]
    dsimp only
    rw [words_bytes, hleft, ih, Option.map_some, BlockCipher.cbcDecrypt, ofBlocks_cons]
    simp only [List.append_assoc]

end Loops

/-! ### Reading a string -/

section Reading

variable {init bx : Boxes} {key str : List Byte}

theorem toCInt_le {n : Int} (h : 0 ≤ n) : toCInt n ≤ n := by
  rw [toCInt]
  omega

/-- What `decrypt_string_cbc` does with base64 of whole groups. -/
theorem decryptStringCbc_of_groups (hkey : key ≠ []) (hbx : blowfishInit init key = some bx)
    (hlow : 0 ≤ toCInt str.length) (hhigh : toCInt str.length < intMax)
    (hfour : (toCInt str.length).toNat % 4 = 0) :
    decryptStringCbc init key str =
      (cbcDecodeLoop ((toCInt str.length).toNat / 4 * 3 + 1) (str.take (toCInt str.length).toNat) []
        ((toCInt str.length).toNat / 4 * 3)).bind fun
        | none => some (str.take (toCInt str.length).toNat ++ [0])
        | some (dest, dlen) =>
          (put ((toCInt str.length).toNat / 4 * 3 + 1) dest [0]).bind fun dest =>
            if dlen % 8 ≠ 0 then some (str.take (toCInt str.length).toNat ++ [0])
            else
              (cbcDecryptLoop bx (0, 0) dlen dest).bind fun dest =>
                if dlen < 8 ∨ dest.length < dlen ∨
                    (str.take (toCInt str.length).toNat ++ [0]).length < dlen - 7 then none
                else some ((dest.drop 8).take (dlen - 8) ++
                  0 :: (str.take (toCInt str.length).toNat ++ [0]).drop (dlen - 7)) := by
  unfold decryptStringCbc
  dsimp only
  rw [if_neg (by omega), if_neg (by rintro (h | h); exacts [hkey h, h hfour]), hbx, Option.bind_some]

theorem decrypt_blocks {cs : List Block} {n dlen : Nat} {s : List Byte} (hdlen : dlen = 8 * cs.length)
    (hpos : cs ≠ []) (hs : s.length = n + 1) (hle : dlen ≤ n) :
    ((cbcDecryptLoop bx (0, 0) dlen (ofBlocks cs ++ [0])).bind fun dest =>
      if dlen < 8 ∨ dest.length < dlen ∨ s.length < dlen - 7 then none
      else some ((dest.drop 8).take (dlen - 8) ++ 0 :: s.drop (dlen - 7))) =
    some ((ofBlocks (BlockCipher.cbcDecrypt chain (blowfishDecipher bx) (0, 0) cs)).drop 8 ++
      0 :: s.drop (dlen - 7)) := by
  have hcount := List.length_pos_iff.2 hpos
  have hlen : (ofBlocks (BlockCipher.cbcDecrypt chain (blowfishDecipher bx) (0, 0) cs)).length =
      dlen := by
    rw [length_ofBlocks, BlockCipher.length_cbcDecrypt, hdlen]
  rw [hdlen, cbcDecryptLoop_blocks, Option.bind_some, ← hdlen]
  generalize ofBlocks (BlockCipher.cbcDecrypt chain (blowfishDecipher bx) (0, 0) cs) = dest at hlen
  have hall : (dest ++ [0]).length = dlen + 1 := by
    rw [List.length_append, hlen]
    rfl
  rw [if_neg (by omega), List.drop_append_of_le_length (by omega), List.take_append_of_le_length,
    List.take_of_length_le]
  · rw [List.length_drop]
    omega
  · rw [List.length_drop]
    omega

/-- Where the string is some base64, or none, and its length an `int`. -/
def CbcReads (key str : List Byte) : Prop :=
  0 ≤ toCInt str.length ∧ toCInt str.length < intMax ∧
    (toCInt str.length % 4 = 0 → toCInt str.length ≠ 0 ∧ 0 ≤ toCInt key.length)

instance (key str : List Byte) : Decidable (CbcReads key str) :=
  inferInstanceAs (Decidable (_ ∧ _ ∧ _))

theorem exists_blowfishInit (init : Boxes) {key : List Byte} (h : 0 ≤ toCInt key.length) :
    ∃ bx, blowfishInit init key = some bx := by
  cases hbx : blowfishInit init key with
  | none =>
    have := (blowfishInit_eq_none_iff init key).1 hbx
    omega
  | some bx => exact ⟨bx, rfl⟩

theorem length_take_toCInt (str : List Byte) :
    (str.take (toCInt str.length).toNat).length = (toCInt str.length).toNat := by
  have := toCInt_le (Int.natCast_nonneg str.length)
  rw [List.length_take]
  omega

theorem decryptStringCbc_safe (hkey : key ≠ []) (h : CbcReads key str) :
    ∃ buf, decryptStringCbc init key str = some buf ∧ 0 ∈ buf := by
  obtain ⟨hlow, hhigh, hgroups⟩ := h
  have hzero : (0 : Byte) ∈ str.take (toCInt str.length).toNat ++ [0] :=
    List.mem_append_right _ List.mem_cons_self
  by_cases hfour : (toCInt str.length).toNat % 4 = 0
  · obtain ⟨hne, hpos⟩ := hgroups (by omega)
    obtain ⟨bx, hbx⟩ := exists_blowfishInit init hpos
    have hlen := length_take_toCInt str
    have hk : (toCInt str.length).toNat = 4 * ((toCInt str.length).toNat / 4) := by omega
    rw [decryptStringCbc_of_groups hkey hbx hlow hhigh hfour]
    generalize str.take (toCInt str.length).toNat = s at hlen hzero ⊢
    generalize (toCInt str.length).toNat / 4 = k at hk ⊢
    have hs : s.length = 4 * k := hlen.trans hk
    have hcap : ([] : List Byte).length + 3 * k ≤ k * 3 + 1 := by
      rw [List.length_nil]
      omega
    have hdlen : k * 3 = ([] : List Byte).length + 3 * k := by
      rw [List.length_nil]
      omega
    rcases cbcDecodeLoop_safe hs hcap hdlen with hdecode | ⟨d, hdecode, hlower, hupper⟩
    · rw [hdecode]
      exact ⟨_, rfl, hzero⟩
    · rw [List.length_nil] at hlower hupper
      rw [hdecode, Option.bind_some]
      dsimp only
      rw [put_of_le (by rw [List.length_singleton]; omega), Option.bind_some]
      by_cases height : d.length % 8 = 0
      · obtain ⟨cs, rfl, hcs⟩ := exists_ofBlocks (n := d.length / 8) (s := d) (by omega)
        have hblocks : cs ≠ [] := by
          rintro rfl
          rw [show (ofBlocks []).length = 0 from rfl] at hlower
          omega
        rw [if_neg (not_not_intro height),
          decrypt_blocks (n := 4 * k) (length_ofBlocks cs) hblocks (by simp [hs]) (by omega)]
        exact ⟨_, rfl, List.mem_append_right _ List.mem_cons_self⟩
      · rw [if_pos height]
        exact ⟨_, rfl, hzero⟩
  · refine ⟨_, ?_, hzero⟩
    unfold decryptStringCbc
    dsimp only
    rw [if_neg (by omega), if_pos (.inr hfour)]

theorem decryptStringCbc_empty (h : toCInt str.length = 0) (hkey : key ≠ []) :
    decryptStringCbc init key str = none := by
  have hmax : intMax = 2147483647 := rfl
  cases hbx : blowfishInit init key with
  | none =>
    unfold decryptStringCbc
    dsimp only
    rw [h, if_neg (by omega), if_neg (by rintro (h | h); exacts [hkey h, h rfl]), hbx]
    rfl
  | some bx =>
    rw [decryptStringCbc_of_groups hkey hbx (by omega) (by omega) (by rw [h]; rfl), h]
    have hdecode : cbcDecodeLoop ((0 : Int).toNat / 4 * 3 + 1) (str.take (0 : Int).toNat) []
        ((0 : Int).toNat / 4 * 3) = some (some ([], 0)) := rfl
    have hput : put ((0 : Int).toNat / 4 * 3 + 1) [] [0] = some [0] := rfl
    rw [hdecode, Option.bind_some]
    dsimp only
    rw [hput, Option.bind_some, if_neg (not_not_intro rfl), cbcDecryptLoop_done, Option.bind_some,
      if_pos (.inl (by decide))]

theorem decryptStringCbc_safe_iff (hkey : key ≠ []) :
    (∃ buf, decryptStringCbc init key str = some buf ∧ 0 ∈ buf) ↔ CbcReads key str := by
  refine ⟨fun ⟨buf, hbuf, _⟩ => ?_, decryptStringCbc_safe hkey⟩
  by_cases hlow : toCInt str.length < 0 ∨ intMax < toCInt str.length + 1
  · unfold decryptStringCbc at hbuf
    dsimp only at hbuf
    rw [if_pos hlow] at hbuf
    cases hbuf
  rw [not_or] at hlow
  refine ⟨by omega, by omega, fun hfour => ⟨fun hzero => ?_, ?_⟩⟩
  · rw [decryptStringCbc_empty hzero hkey] at hbuf
    cases hbuf
  · by_contra hneg
    unfold decryptStringCbc at hbuf
    dsimp only at hbuf
    rw [if_neg (by omega), if_neg (by rintro (h | h); exacts [hkey h, h (by omega)]),
      (blowfishInit_eq_none_iff init key).2 (by omega)] at hbuf
    cases hbuf

end Reading

/-! ### What is read again -/

section Again

variable {init bx : Boxes} {key text : List Byte} {iv : Iv}

theorem exists_block {s : List Byte} (hs : s.length = 8) : ∃ b, s = ofBlocks [b] := by
  obtain ⟨bs, rfl, hlen⟩ := exists_ofBlocks (n := 1) hs
  obtain ⟨b, rfl⟩ := List.length_eq_one_iff.1 hlen
  exact ⟨b, rfl⟩

theorem plain_blocks (iv : Iv) (htext : 0 ∉ text) {m : Nat} (hm : 0 < m)
    (hle : m ≤ text.length + 8) :
    ∃ b bs, (iv.1 ++ text.take m ++ List.replicate (m + 1 - (text.take m).length) 0).take m ++
        List.replicate (padding m) 0 = ofBlocks (b :: bs) ∧
      (∀ b ∈ bs, byte b.1 24 ≠ 0) ∧
      ∃ k, (ofBlocks (b :: bs)).drop 8 = text.take (m - 8) ++ List.replicate k 0 := by
  have hiv := iv.2
  rw [List.append_assoc]
  by_cases hlong : 8 ≤ m
  · obtain ⟨b, hb⟩ := exists_block hiv
    have hlen : (text.take (m - 8)).length = m - 8 := by
      rw [List.length_take]
      omega
    have hcut : 0 ∉ text.take (m - 8) := fun hmem => htext (List.mem_of_mem_take hmem)
    obtain ⟨bs, hbs, hstarts⟩ := exists_blocks hcut
    have htake : (iv.1 ++ (text.take m ++ List.replicate (m + 1 - (text.take m).length) 0)).take m =
        iv.1 ++ text.take (m - 8) := by
      rw [List.take_append, List.take_of_length_le (by omega), hiv, List.take_append_of_le_length,
        List.take_take, Nat.min_eq_left (by omega)]
      rw [List.length_take]
      omega
    have hpad : padding m = padding (text.take (m - 8)).length := by
      rw [hlen, padding, padding]
      omega
    have hall : ofBlocks (b :: bs) = iv.1 ++ ofBlocks bs := by
      rw [hb, ofBlocks_cons, ofBlocks_cons, show ofBlocks [] = [] from rfl, List.append_nil]
    refine ⟨b, bs, ?_, hstarts, padding m, ?_⟩
    · rw [htake, hpad, List.append_assoc, hbs, hall]
    · rw [hall, List.drop_left' hiv, ← hbs, ← hpad]
  · have htake : (iv.1 ++ (text.take m ++ List.replicate (m + 1 - (text.take m).length) 0)).take m =
        iv.1.take m := List.take_append_of_le_length (by omega)
    obtain ⟨b, hb⟩ := exists_block (s := iv.1.take m ++ List.replicate (padding m) 0) (by
      rw [List.length_append, List.length_take, List.length_replicate, padding]
      omega)
    refine ⟨b, [], by rw [htake, hb], fun _ h => absurd h List.not_mem_nil, 0, ?_⟩
    rw [show m - 8 = 0 by omega, List.take_zero, List.drop_of_length_le]
    · rfl
    · rw [length_ofBlocks]
      exact Nat.le_refl 8

/-- The length as it is kept. -/
def kept (text : List Byte) : Nat := (toCInt (text.length + 8)).toNat

/-- The sizes are numbers of an `int`. -/
def CbcFits (text : List Byte) : Prop :=
  0 ≤ toCInt (text.length + 8) ∧ ((kept text + padding (kept text)) * 2 + 2 : Int) ≤ intMax

theorem encryptStringCbc_eq (hkey : key ≠ []) (hbx : blowfishInit init key = some bx)
    (hfits : CbcFits text) {b : Block} {bs : List Block}
    (hplain : (iv.1 ++ text.take (kept text) ++
        List.replicate (kept text + 1 - (text.take (kept text)).length) 0).take (kept text) ++
      List.replicate (padding (kept text)) 0 = ofBlocks (b :: bs))
    (hstarts : ∀ b ∈ bs, byte b.1 24 ≠ 0) :
    encryptStringCbc init iv key text = some (literal "*" ++
      cbcEncode (ofBlocks (BlockCipher.cbcEncrypt chain (blowfishEncipher bx) (0, 0) (b :: bs))) ++
        [0]) := by
  have hmax : intMax = 2147483647 := rfl
  obtain ⟨hlow, hhigh⟩ := hfits
  have hkept : (kept text : Int) = toCInt (text.length + 8) := Int.toNat_of_nonneg hlow
  have hsize : (BlockCipher.cbcEncrypt chain (blowfishEncipher bx) (0, 0) (b :: bs)).length * 8 =
      kept text + padding (kept text) := by
    have hlen := congrArg List.length hplain
    have hiv := iv.2
    simp only [List.length_append, List.length_take, List.length_replicate, length_ofBlocks] at hlen
    rw [BlockCipher.length_cbcEncrypt]
    omega
  have hbytes : (ofBlocks (BlockCipher.cbcEncrypt chain (blowfishEncipher bx) (0, 0)
      (b :: bs))).length = kept text + padding (kept text) := by
    rw [length_ofBlocks]
    omega
  unfold encryptStringCbc
  dsimp only
  rw [if_neg (by omega), if_neg hkey, hbx, Option.bind_some, ← kept, List.replicate_succ',
    ← List.append_assoc (List.take _ _), hplain, List.append_assoc (ofBlocks _),
    List.singleton_append, cbcEncryptLoop_first hstarts, if_neg (by push_cast; omega),
    List.take_left' hbytes]

theorem fits_of_encryptStringCbc (hkey : key ≠ []) {c : List Byte}
    (h : encryptStringCbc init iv key text = some c) :
    0 ≤ toCInt key.length ∧ CbcFits text ∧ (kept text = 0 → cstr c = [42#8]) := by
  unfold encryptStringCbc at h
  dsimp only at h
  by_cases hsize : toCInt (text.length + 8) < 0 ∨ intMax < toCInt (text.length + 8) + 9
  · rw [if_pos hsize] at h
    cases h
  rw [if_neg hsize, if_neg hkey] at h
  obtain ⟨bx, hbx, h⟩ := Option.bind_eq_some_iff.1 h
  rw [← kept] at h
  by_cases hlarge : intMax < ((kept text + padding (kept text) : Nat) : Int) * 2 + 2
  · rw [if_pos hlarge] at h
    cases h
  rw [if_neg hlarge] at h
  rw [not_or] at hsize
  push_cast at hlarge
  refine ⟨?_, ⟨by omega, by omega⟩, fun hzero => ?_⟩
  · by_contra hneg
    rw [(blowfishInit_eq_none_iff init key).2 (by omega)] at hbx
    cases hbx
  · obtain rfl := Option.some.inj h
    rw [hzero]
    rfl

theorem cbc_roundTrip (hkey : key ≠ []) (hbx : blowfishInit init key = some bx) (htext : 0 ∉ text)
    (iv : Iv) (hfits : CbcFits text) (hpos : 0 < kept text) :
    ∃ c enc buf, encryptStringCbc init iv key text = some c ∧ cstr c = 42#8 :: enc ∧
      decryptStringCbc init key enc = some buf ∧ cstr buf = text.take (kept text - 8) := by
  have hmax : intMax = 2147483647 := rfl
  have hle : kept text ≤ text.length + 8 := by
    have := toCInt_le (show (0 : Int) ≤ text.length + 8 by omega)
    rw [kept]
    omega
  obtain ⟨b, bs, hplain, hstarts, k, htail⟩ := plain_blocks iv htext hpos hle
  have henc := encryptStringCbc_eq hkey hbx hfits hplain hstarts
  have hdec := BlockCipher.cbcDecrypt_cbcEncrypt chain (blowfishDecipher_encipher bx) (0, 0) (b :: bs)
  have hcount := BlockCipher.length_cbcEncrypt chain (blowfishEncipher bx) (0, 0) (b :: bs)
  have hsmall : (8 * (b :: bs).length : Int) * 2 + 2 ≤ intMax := by
    have hlen := congrArg List.length hplain
    have hiv := iv.2
    have hsize := hfits.2
    simp only [List.length_append, List.length_take, List.length_replicate, length_ofBlocks] at hlen
    omega
  generalize BlockCipher.cbcEncrypt chain (blowfishEncipher bx) (0, 0) (b :: bs) = cs
    at henc hdec hcount
  have hcs : (ofBlocks cs).length = 8 * (b :: bs).length := by rw [length_ofBlocks, hcount]
  have hb : 0 < (b :: bs).length := Nat.succ_pos _
  have hlen := length_cbcEncode (ofBlocks cs)
  have hzero := zero_notMem_cbcEncode (ofBlocks cs)
  have hint : toCInt (cbcEncode (ofBlocks cs)).length = (cbcEncode (ofBlocks cs)).length := by
    rw [toCInt]
    omega
  have hnat : (toCInt (cbcEncode (ofBlocks cs)).length).toNat =
      (cbcEncode (ofBlocks cs)).length := by
    rw [hint]
    rfl
  refine ⟨_, cbcEncode (ofBlocks cs), (ofBlocks (b :: bs)).drop 8 ++
    0 :: (cbcEncode (ofBlocks cs) ++ [0]).drop ((ofBlocks cs).length - 7), henc, ?_, ?_, ?_⟩
  · have hnot : (0 : Byte) ∉ literal "*" ++ cbcEncode (ofBlocks cs) := by
      intro hmem
      rcases List.mem_append.1 hmem with h | h
      · exact absurd h (by decide)
      · exact hzero h
    rw [cstr_of_notMem hnot]
    rfl
  · generalize hm : cbcEncode (ofBlocks cs) = enc at hlen hint hnat hzero
    have hcap : ([] : List Byte).length + (ofBlocks cs).length ≤ enc.length / 4 * 3 + 1 := by
      rw [List.length_nil]
      omega
    obtain ⟨dlen, hdecode⟩ := cbcDecodeLoop_encode hcap (enc.length / 4 * 3)
    rw [hm] at hdecode
    have hdlen : dlen = (ofBlocks cs).length := by
      have hgroups : enc.length = 4 * (enc.length / 4) := by omega
      have hroom : ([] : List Byte).length + 3 * (enc.length / 4) ≤ enc.length / 4 * 3 + 1 := by
        rw [List.length_nil]
        omega
      have hthree : enc.length / 4 * 3 = ([] : List Byte).length + 3 * (enc.length / 4) := by
        rw [List.length_nil]
        omega
      rcases cbcDecodeLoop_safe hgroups hroom hthree with h | ⟨d, h, -, -⟩
      · rw [hdecode] at h
        cases h
      · rw [hdecode, List.nil_append] at h
        simp only [Option.some.injEq, Prod.mk.injEq] at h
        rw [h.2, h.1]
    have hne : cs ≠ [] := by
      rintro rfl
      rw [show (ofBlocks []).length = 0 from rfl] at hcs
      omega
    have hs : (enc ++ [0]).length = enc.length + 1 := List.length_append
    have hput : put (enc.length / 4 * 3 + 1) (ofBlocks cs) [0] = some (ofBlocks cs ++ [0]) := by
      refine put_of_le ?_
      rw [List.length_singleton]
      omega
    have height : ¬ (ofBlocks cs).length % 8 ≠ 0 := by omega
    have hle' : (ofBlocks cs).length ≤ enc.length := by omega
    have hlow : 0 ≤ toCInt enc.length := by
      rw [hint]
      exact Int.natCast_nonneg _
    have hhigh : toCInt enc.length < intMax := by
      rw [hint]
      omega
    have hfour : (toCInt enc.length).toNat % 4 = 0 := by
      rw [hnat]
      omega
    have hgroups := decryptStringCbc_of_groups hkey hbx hlow hhigh hfour
    rw [hgroups, hnat, List.take_length, hdecode, Option.bind_some]
    dsimp only
    rw [List.nil_append, hput, Option.bind_some, hdlen, if_neg height,
      decrypt_blocks (length_ofBlocks cs) hne hs hle', hdec]
  · rw [htail, List.append_assoc]
    have hnot : (0 : Byte) ∉ text.take (kept text - 8) := fun hmem =>
      htext (List.mem_of_mem_take hmem)
    cases k with
    | zero => exact cstr_of_notMem hnot _
    | succ k => exact cstr_of_notMem hnot _

end Again

end Eggdrop.Blowfish
