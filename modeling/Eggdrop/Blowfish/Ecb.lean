import Eggdrop.Blowfish.Cipher

/-!
# Ecb — the electronic code book of blowfish.c

Each block is written in twelve digits of six bits.  Strings are lists of bytes, and a result is
the buffer it is returned in.

* `ecbDecryptLoop_safe`: whatever the string, reading and writing stay inside the buffers.
* `ecbDecryptLoop_text`: what was written is read.
-/

namespace Eggdrop.Blowfish

/-- The C string at the start of a buffer. -/
def cstr (buf : List Byte) : List Byte := buf.takeWhile (· ≠ 0)

/-- The bytes of a string literal. -/
def literal (s : String) : List Byte := s.toList.map fun c => BitVec.ofNat 8 c.toNat

/-- Write behind what is in a buffer of `cap` bytes; `none` where they do not fit. -/
def put (cap : Nat) (dest bs : List Byte) : Option (List Byte) :=
  if dest.length + bs.length ≤ cap then some (dest ++ bs) else none

theorem put_of_le {cap : Nat} {dest bs : List Byte} (h : dest.length + bs.length ≤ cap) :
    put cap dest bs = some (dest ++ bs) :=
  if_pos h

/-! ### Digits -/

def base64 : List Byte := literal "./0123456789abcdefghijklmnopqrstuvwxyzABCDEFGHIJKLMNOPQRSTUVWXYZ"

/-- `base64dec`. -/
def base64dec (c : Byte) : Nat := (base64.idxOf? c).getD 0

/-- The six bits from bit `6 * i` on. -/
def digit (w : BitVec 32) (i : Nat) : Nat := (w >>> (6 * i) &&& 63#32).toNat

def undigit (d : Nat) (i : Nat) : BitVec 32 := BitVec.ofNat 32 d <<< (6 * i)

/-- A word in digits, the lowest first. -/
def wordText (w : BitVec 32) : List Byte :=
  [digit w 0, digit w 1, digit w 2, digit w 3, digit w 4, digit w 5].map fun d => base64.getD d 0

/-- Six digits as a word. -/
def textWord (s : List Byte) : BitVec 32 :=
  let d (i : Nat) := undigit (base64dec (s.getD i 0)) i
  d 0 ||| d 1 ||| d 2 ||| d 3 ||| d 4 ||| d 5

/-- The right half of a block comes first. -/
def blockText (x : Block) : List Byte := wordText x.2 ++ wordText x.1

def textBlock (s : List Byte) : Block := (textWord (s.drop 6), textWord (s.take 6))

/-! ### `encrypt_string_ecb` and `decrypt_string_ecb` -/

/-- The loop of `encrypt_string_ecb`, over the string with zeros behind it. -/
@[grind =] def ecbEncryptLoop (bx : Boxes) : List Byte → List Byte
  | b0 :: b1 :: b2 :: b3 :: b4 :: b5 :: b6 :: b7 :: rest =>
    if b0 = 0 then []
    else
      blockText (blowfishEncipher bx (word b0 b1 b2 b3, word b4 b5 b6 b7)) ++ ecbEncryptLoop bx rest
  | _ => [] -- fewer than eight bytes are zeros

/-- `encrypt_string_ecb`. -/
def encryptStringEcb (init : Boxes) (key str : List Byte) : Option (List Byte) :=
  let s := str ++ List.replicate 9 0
  if key = [] then some s
  else (blowfishInit init key).map fun bx => ecbEncryptLoop bx s ++ [0]

/-- The loop of `decrypt_string_ecb`: what is left of `s`, and what is in `dest`. -/
@[grind =] def ecbDecryptLoop (bx : Boxes) (cap : Nat) : Nat → List Byte → List Byte → Option (List Byte)
  | 0, _, _ => none
  | n + 1, s, dest =>
    match s with
    | [] => none
    | c :: _ =>
      if c = 0 then put cap dest [0]
      else if s.length < 12 then none
      else
        let x := blowfishDecipher bx (textBlock (s.take 12))
        (put cap dest (bytes x.1 ++ bytes x.2)).bind (ecbDecryptLoop bx cap n (s.drop 12))

/-- `decrypt_string_ecb`. -/
@[grind =] def decryptStringEcb (init : Boxes) (key str : List Byte) : Option (List Byte) :=
  let s := str ++ List.replicate 12 0
  if key = [] then some s
  else (blowfishInit init key).bind fun bx =>
    ecbDecryptLoop bx (str.length + 12) (str.length + 1) s []

/-! ### Digits are read as they were written -/

theorem getElem_mask : ∀ k : Fin 32, (63#32)[k] = decide (k.val < 6) := by decide

theorem getElem_undigit (w : BitVec 32) (i : Nat) {j : Nat} (hj : j < 32) :
    (undigit (digit w i) i)[j] = (decide (6 * i ≤ j ∧ j < 6 * i + 6) && w[j]) := by
  unfold undigit digit
  rw [BitVec.ofNat_toNat, BitVec.setWidth_eq, BitVec.getElem_shiftLeft]
  by_cases hlow : j < 6 * i
  · have hout : ¬ (6 * i ≤ j ∧ j < 6 * i + 6) := by omega
    simp [hlow, hout]
  · have hmask : (63#32)[j - 6 * i] = decide (j - 6 * i < 6) := getElem_mask ⟨j - 6 * i, by omega⟩
    rw [BitVec.getElem_and, hmask, BitVec.getElem_ushiftRight,
      show 6 * i + (j - 6 * i) = j by omega, BitVec.getLsbD_eq_getElem hj]
    by_cases hhigh : j - 6 * i < 6
    · have hin : 6 * i ≤ j ∧ j < 6 * i + 6 := by omega
      simp [hlow, hhigh, hin]
    · have hout : ¬ (6 * i ≤ j ∧ j < 6 * i + 6) := by omega
      simp [hlow, hhigh, hout]

theorem undigits_digits (w : BitVec 32) :
    undigit (digit w 0) 0 ||| undigit (digit w 1) 1 ||| undigit (digit w 2) 2 |||
      undigit (digit w 3) 3 ||| undigit (digit w 4) 4 ||| undigit (digit w 5) 5 = w := by
  ext j hj
  simp only [BitVec.getElem_or, getElem_undigit]
  rw [← Bool.and_or_distrib_right, ← Bool.and_or_distrib_right, ← Bool.and_or_distrib_right,
    ← Bool.and_or_distrib_right, ← Bool.and_or_distrib_right]
  simp only [← Bool.decide_or]
  -- each of the 32 bits is in one of the six digits
  rw [decide_eq_true (by omega), Bool.true_and]

theorem digit_lt (w : BitVec 32) (i : Nat) : digit w i < 64 := by
  rw [digit, BitVec.toNat_and]
  exact Nat.lt_of_le_of_lt Nat.and_le_right (by decide)

theorem base64_spec : ∀ d : Fin 64,
    base64dec (base64.getD d 0) = d ∧ base64.getD d 0 ≠ 0 ∧ base64.getD d 0 ≠ 42#8 := by
  simp only [base64dec, base64, literal]
  rw [String.toList_ofList]
  decide +kernel

theorem base64dec_getD {d : Nat} (h : d < 64) : base64dec (base64.getD d 0) = d :=
  (base64_spec ⟨d, h⟩).1

theorem textWord_wordText (w : BitVec 32) : textWord (wordText w) = w := by
  have hd (i : Nat) := base64dec_getD (digit_lt w i)
  show undigit (base64dec (base64.getD (digit w 0) 0)) 0 |||
    undigit (base64dec (base64.getD (digit w 1) 0)) 1 |||
    undigit (base64dec (base64.getD (digit w 2) 0)) 2 |||
    undigit (base64dec (base64.getD (digit w 3) 0)) 3 |||
    undigit (base64dec (base64.getD (digit w 4) 0)) 4 |||
    undigit (base64dec (base64.getD (digit w 5) 0)) 5 = w
  rw [hd 0, hd 1, hd 2, hd 3, hd 4, hd 5]
  exact undigits_digits w

theorem textBlock_blockText (x : Block) : textBlock (blockText x) = x :=
  Prod.ext (textWord_wordText x.1) (textWord_wordText x.2)

theorem mem_blockText {x : Block} {c : Byte} (h : c ∈ blockText x) : c ≠ 0 ∧ c ≠ 42#8 := by
  have hword (w : BitVec 32) (hw : c ∈ wordText w) : c ≠ 0 ∧ c ≠ 42#8 := by
    obtain ⟨d, hd, rfl⟩ := List.mem_map.1 hw
    have hlt : d < 64 := by
      simp only [List.mem_cons, List.not_mem_nil, or_false] at hd
      rcases hd with rfl | rfl | rfl | rfl | rfl | rfl <;> exact digit_lt w _
    exact (base64_spec ⟨d, hlt⟩).2
  rcases List.mem_append.1 h with h | h
  · exact hword x.2 h
  · exact hword x.1 h

theorem length_blockText (x : Block) : (blockText x).length = 12 := rfl

/-! ### The loops -/

section Loops

variable {bx : Boxes} {cap n : Nat} {s dest : List Byte}

theorem ecbDecryptLoop_zero (h : dest.length < cap) (rest : List Byte) :
    ecbDecryptLoop bx cap (n + 1) (0 :: rest) dest = some (dest ++ [0]) := by
  rw [ecbDecryptLoop]
  dsimp only
  rw [if_pos rfl, put_of_le]
  rw [List.length_singleton]
  omega

theorem ecbDecryptLoop_block {c : Byte} (hc : c ≠ 0) (hs : 12 ≤ (c :: s).length)
    (hcap : dest.length + 8 ≤ cap) :
    ecbDecryptLoop bx cap (n + 1) (c :: s) dest =
      ecbDecryptLoop bx cap n ((c :: s).drop 12)
        (dest ++ ofBlocks [blowfishDecipher bx (textBlock ((c :: s).take 12))]) := by
  have hput (x : Block) : put cap dest (bytes x.1 ++ bytes x.2) = some (dest ++ ofBlocks [x]) := by
    rw [put_of_le]
    · rw [ofBlocks_cons, ofBlocks, List.flatMap_nil, List.append_nil]
    · exact hcap
  rw [ecbDecryptLoop]
  dsimp only
  rw [if_neg hc, if_neg (by omega), hput]
  rfl

/-- Whatever the string, reading and writing stay inside the buffers: behind what is left of it stand
twelve zeros, or what is left of them. -/
theorem ecbDecryptLoop_safe {rest : List Byte} (hrest : 0 ∉ rest) {z : Nat}
    (hz : z = 12 ∨ (rest = [] ∧ 0 < z)) (hn : rest.length < n)
    (hcap : dest.length + rest.length + (if rest = [] then 1 else 8) ≤ cap) :
    ∃ buf, ecbDecryptLoop bx cap n (rest ++ List.replicate z 0) dest = some buf ∧ 0 ∈ buf := by
  induction n generalizing rest dest z with
  | zero => exact absurd hn (Nat.not_lt_zero _)
  | succ n ih =>
    cases rest with
    | nil =>
      obtain ⟨z, rfl⟩ : ∃ k, z = k + 1 := ⟨z - 1, by omega⟩
      refine ⟨dest ++ [0], ?_, List.mem_append_right _ List.mem_cons_self⟩
      rw [List.nil_append, List.replicate_succ]
      refine ecbDecryptLoop_zero ?_ _
      rw [if_pos rfl, List.length_nil] at hcap
      omega
    | cons c rest =>
      obtain rfl : z = 12 := hz.resolve_right fun h => absurd h.1 (List.cons_ne_nil _ _)
      have hc : c ≠ 0 := fun h => hrest (h ▸ List.mem_cons_self)
      rw [if_neg (List.cons_ne_nil _ _), List.length_cons] at hcap
      rw [List.length_cons] at hn
      have hlen : 12 ≤ (c :: (rest ++ List.replicate 12 0)).length := by
        rw [List.length_cons, List.length_append, List.length_replicate]
        omega
      have hnew (x : Block) : (dest ++ ofBlocks [x]).length = dest.length + 8 := by
        rw [List.length_append, length_ofBlocks]
        rfl
      rw [List.cons_append, ecbDecryptLoop_block hc hlen (by omega), ← List.cons_append,
        List.drop_append, List.drop_replicate, List.length_cons]
      by_cases hlong : 12 ≤ (c :: rest).length
      · rw [List.length_cons] at hlong
        have hzero : 12 - (12 - (rest.length + 1)) = 12 := by omega
        rw [hzero]
        refine ih (fun hmem => hrest (List.mem_of_mem_drop hmem)) (.inl rfl) ?_ ?_
        · rw [List.length_drop, List.length_cons]
          omega
        · rw [hnew, List.length_drop, List.length_cons]
          split
          · omega
          · omega
      · have hnil : (c :: rest).drop 12 = [] := List.drop_of_length_le (by omega)
        rw [List.length_cons] at hlong
        rw [hnil]
        refine ih List.not_mem_nil (.inr ⟨rfl, by omega⟩) ?_ ?_
        · rw [List.length_nil]
          omega
        · rw [hnew, if_pos rfl, List.length_nil]
          omega

theorem ecbDecryptLoop_text {bs : List Block} {rest : List Byte} (hn : bs.length < n)
    (hcap : dest.length + 8 * bs.length < cap) :
    ecbDecryptLoop bx cap n ((bs.flatMap fun b => blockText (blowfishEncipher bx b)) ++ 0 :: rest)
      dest = some (dest ++ ofBlocks bs ++ [0]) := by
  induction bs generalizing n dest with
  | nil =>
    obtain ⟨n, rfl⟩ : ∃ k, n = k + 1 := ⟨n - 1, by rw [List.length_nil] at hn; omega⟩
    rw [List.flatMap_nil, List.nil_append, ecbDecryptLoop_zero hcap]
    rw [ofBlocks, List.flatMap_nil, List.append_nil]
  | cons b bs ih =>
    obtain ⟨n, rfl⟩ : ∃ k, n = k + 1 := ⟨n - 1, by rw [List.length_cons] at hn; omega⟩
    rw [List.length_cons] at hn hcap
    rw [List.flatMap_cons, List.append_assoc]
    generalize hrest : (bs.flatMap fun b => blockText (blowfishEncipher bx b)) ++ 0 :: rest = tail
    have htext := textBlock_blockText (blowfishEncipher bx b)
    have hlen := length_blockText (blowfishEncipher bx b)
    have hne (c : Byte) (hc : c ∈ blockText (blowfishEncipher bx b)) := (mem_blockText hc).1
    generalize blockText (blowfishEncipher bx b) = text at htext hlen hne
    obtain ⟨c, text, rfl⟩ : ∃ c t, text = c :: t := by
      cases text with
      | nil => cases hlen
      | cons c t => exact ⟨c, t, rfl⟩
    rw [List.cons_append, ecbDecryptLoop_block (hne c List.mem_cons_self) _ (by omega),
      ← List.cons_append, List.take_left' hlen, List.drop_left' hlen, htext,
      blowfishDecipher_encipher, ← hrest, ih (by omega)]
    · rw [ofBlocks_cons, ofBlocks_cons, ofBlocks, List.flatMap_nil, List.append_nil]
      simp only [List.append_assoc]
    · rw [List.length_append, length_ofBlocks, List.length_singleton]
      omega
    · rw [← List.cons_append, List.length_append, hlen]
      omega

end Loops

/-! ### Strings in blocks -/

theorem cstr_of_notMem {s : List Byte} (hs : 0 ∉ s) (rest : List Byte) :
    cstr (s ++ 0 :: rest) = s := by
  have hall : ∀ c ∈ s, decide (c ≠ 0) = true := by
    intro c hc
    rw [decide_eq_true_iff]
    rintro rfl
    exact hs hc
  rw [cstr, List.takeWhile_append_of_pos hall, List.takeWhile_cons_of_neg (by simp),
    List.append_nil]

theorem getElem?_ofBlocks (bs : List Block) (i : Nat) :
    (ofBlocks bs)[8 * i]? = bs[i]?.map fun b => byte b.1 24 := by
  induction bs generalizing i with
  | nil => rfl
  | cons b bs ih =>
    have hlen : (bytes b.1 ++ bytes b.2).length = 8 := rfl
    rw [ofBlocks_cons]
    cases i with
    | zero => rfl
    | succ i =>
      rw [List.getElem?_append_right (by omega), hlen, show 8 * (i + 1) - 8 = 8 * i by omega, ih]
      rfl

/-- The zeros that fill the last block. -/
def padding (n : Nat) : Nat := (8 - n % 8) % 8

theorem exists_blocks {text : List Byte} (htext : 0 ∉ text) :
    ∃ bs : List Block, text ++ List.replicate (padding text.length) 0 = ofBlocks bs ∧
      ∀ b ∈ bs, byte b.1 24 ≠ 0 := by
  have hlen : (text ++ List.replicate (padding text.length) 0).length =
      8 * ((text.length + padding text.length) / 8) := by
    rw [List.length_append, List.length_replicate, padding]
    omega
  obtain ⟨bs, hbs, hcount⟩ := exists_ofBlocks hlen
  refine ⟨bs, hbs, fun b hb hzero => ?_⟩
  obtain ⟨i, hi, hib⟩ := List.mem_iff_getElem.1 hb
  have hstart : 8 * i < text.length := by
    rw [hcount, padding] at hi
    omega
  have hat := getElem?_ofBlocks bs i
  rw [← hbs, List.getElem?_append_left hstart, List.getElem?_eq_getElem hi, hib, Option.map_some,
    hzero] at hat
  exact htext (List.mem_of_getElem? hat)

theorem ecbEncryptLoop_zero (bx : Boxes) (s : List Byte) : ecbEncryptLoop bx (0 :: s) = [] := by
  unfold ecbEncryptLoop
  split
  · rename_i heq
    rw [if_pos (List.cons.inj heq).1.symm]
  · rfl

theorem ecbEncryptLoop_blocks (bx : Boxes) {bs : List Block} (hbs : ∀ b ∈ bs, byte b.1 24 ≠ 0)
    (s : List Byte) : ecbEncryptLoop bx (ofBlocks bs ++ 0 :: s) =
      bs.flatMap fun b => blockText (blowfishEncipher bx b) := by
  induction bs with
  | nil => exact ecbEncryptLoop_zero bx s
  | cons b bs ih =>
    have hb : (word (byte b.1 24) (byte b.1 16) (byte b.1 8) (byte b.1 0),
        word (byte b.2 24) (byte b.2 16) (byte b.2 8) (byte b.2 0)) = b :=
      Prod.ext (word_bytes b.1) (word_bytes b.2)
    rw [ofBlocks_cons, List.append_assoc]
    show ecbEncryptLoop bx (byte b.1 24 :: byte b.1 16 :: byte b.1 8 :: byte b.1 0 ::
      byte b.2 24 :: byte b.2 16 :: byte b.2 8 :: byte b.2 0 :: (ofBlocks bs ++ 0 :: s)) = _
    rw [ecbEncryptLoop, if_neg (hbs b List.mem_cons_self), hb,
      ih fun b hb => hbs b (List.mem_cons_of_mem _ hb), List.flatMap_cons]

/-! ### The code book -/

section Code

variable {init bx : Boxes} {key : List Byte}

theorem decryptStringEcb_safe (hbx : blowfishInit init key = some bx) (hkey : key ≠ [])
    {str : List Byte} (hstr : 0 ∉ str) : ∃ buf, decryptStringEcb init key str = some buf ∧ 0 ∈ buf := by
  unfold decryptStringEcb
  dsimp only
  rw [if_neg hkey, hbx, Option.bind_some]
  refine ecbDecryptLoop_safe hstr (.inl rfl) (Nat.lt_succ_self _) ?_
  rw [List.length_nil]
  split
  · omega
  · omega

theorem ecb_roundTrip (hbx : blowfishInit init key = some bx) (hkey : key ≠ []) {text : List Byte}
    (htext : 0 ∉ text) :
    ∃ c buf, encryptStringEcb init key text = some c ∧ (∀ x ∈ cstr c, x ≠ 0 ∧ x ≠ 42#8) ∧
      decryptStringEcb init key (cstr c) = some buf ∧ cstr buf = text := by
  obtain ⟨bs, hbs, hstarts⟩ := exists_blocks htext
  -- the nine zeros behind the text fill the last block and end the loop
  have hzeros : ∃ k, (9 : Nat) = padding text.length + (k + 1) :=
    ⟨8 - padding text.length, by rw [padding]; omega⟩
  obtain ⟨k, hk⟩ := hzeros
  have hs : text ++ List.replicate 9 0 = ofBlocks bs ++ 0 :: List.replicate k 0 := by
    rw [hk, ← List.replicate_append_replicate, ← List.append_assoc, hbs, List.replicate_succ]
  have hmem (x : Byte) (hx : x ∈ bs.flatMap fun b => blockText (blowfishEncipher bx b)) :
      x ≠ 0 ∧ x ≠ 42#8 := by
    obtain ⟨b, -, hb⟩ := List.mem_flatMap.1 hx
    exact mem_blockText hb
  have hcstr := cstr_of_notMem (fun hmem0 => (hmem 0 hmem0).1 rfl) []
  refine ⟨(bs.flatMap fun b => blockText (blowfishEncipher bx b)) ++ [0], ofBlocks bs ++ [0], ?_, ?_,
    ?_, ?_⟩
  · unfold encryptStringEcb
    dsimp only
    rw [if_neg hkey, hbx, Option.map_some, hs, ecbEncryptLoop_blocks bx hstarts]
  · rw [hcstr]
    exact hmem
  · have hlen : (bs.flatMap fun b => blockText (blowfishEncipher bx b)).length = 12 * bs.length := by
      have hconst : bs.map (fun b => (blockText (blowfishEncipher bx b)).length) =
          List.replicate bs.length 12 :=
        List.eq_replicate_iff.2 ⟨List.length_map _, fun x hx => by
          obtain ⟨b, -, rfl⟩ := List.mem_map.1 hx
          rfl⟩
      rw [List.length_flatMap, hconst, List.sum_replicate_nat, Nat.mul_comm]
    rw [hcstr]
    unfold decryptStringEcb
    dsimp only
    rw [if_neg hkey, hbx, Option.bind_some, List.replicate_succ, ecbDecryptLoop_text]
    · rw [List.nil_append]
    · omega
    · rw [List.length_nil]
      omega
  · rw [← hbs, List.append_assoc, ← List.replicate_succ', List.replicate_succ]
    exact cstr_of_notMem htext _

end Code

end Eggdrop.Blowfish
