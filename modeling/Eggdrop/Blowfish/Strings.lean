import Eggdrop.Blowfish.Cbc

/-!
# Strings — `encrypt_string` and `decrypt_string` of blowfish.c

The mode is named before the key or by a setting; in a ciphertext a `*` marks chaining.

* `decryptString_eq`: reading goes by the mark alone.
* `roundTrip_iff`: what is read as it was written.
* `returns_iff`: where reading stays inside the buffers.
-/

namespace Eggdrop.Blowfish

def toLower (b : Byte) : Byte := if 65#8 ≤ b ∧ b ≤ 90#8 then b + 32#8 else b

/-- `!op_strncasecmp(s, p, 4)` for a `p` of four characters. -/
def startsWith (s : List Byte) (p : String) : Bool := (s.take 4).map toLower == literal p

/-- `!op_strncasecmp(bf_mode, p, sizeof bf_mode)`. -/
def modeIs (bfMode : List Byte) (p : String) : Bool := bfMode.map toLower == literal p

/-- `encrypt_string`. -/
def encryptString (init : Boxes) (iv : Iv) (bfMode key str : List Byte) : Option (List Byte) :=
  if startsWith key "ecb:" then encryptStringEcb init (key.drop 4) str
  else if startsWith key "cbc:" then encryptStringCbc init iv (key.drop 4) str
  else if modeIs bfMode "ecb" then encryptStringEcb init key str
  else if modeIs bfMode "cbc" then encryptStringCbc init iv key str
  else encryptStringEcb init key str

/-- `decrypt_string`. -/
def decryptString (init : Boxes) (key str : List Byte) : Option (List Byte) :=
  if startsWith key "ecb:" then
    if str.head? = some 42#8 then decryptStringCbc init (key.drop 4) (str.drop 1)
    else decryptStringEcb init (key.drop 4) str
  else if startsWith key "cbc:" then
    if str.head? ≠ some 42#8 then decryptStringEcb init (key.drop 4) str
    else decryptStringCbc init (key.drop 4) (str.drop 1)
  else if str.head? ≠ some 42#8 then decryptStringEcb init key str
  else decryptStringCbc init key (str.drop 1)

/-! ### What they are for -/

/-- A key without the name of the mode. -/
def keyOf (key : List Byte) : List Byte :=
  if startsWith key "ecb:" ∨ startsWith key "cbc:" then key.drop 4 else key

/-- A key that is not empty, with the name of a mode before it or not. -/
abbrev Key := {key : List Byte // keyOf key ≠ []}

/-- A text: none of its bytes is zero. -/
abbrev Text := {text : List Byte // 0 ∉ text}

/-- Whether a text is chained. -/
def Chained (bfMode key : List Byte) : Prop :=
  startsWith key "ecb:" = false ∧ (startsWith key "cbc:" = true ∨ modeIs bfMode "cbc" = true)

instance (bfMode key : List Byte) : Decidable (Chained bfMode key) :=
  inferInstanceAs (Decidable (_ ∧ _))

/-- What was written is read. -/
def RoundTrip (init : Boxes) (iv : Iv) (bfMode : List Byte) (key : Key) (text : Text) : Prop :=
  ∃ c buf, encryptString init iv bfMode key text = some c ∧
    decryptString init key (cstr c) = some buf ∧ cstr buf = text

/-- Reading stays inside the buffers and ends in a C string. -/
def Returns (init : Boxes) (key : Key) (str : Text) : Prop :=
  ∃ buf, decryptString init key str = some buf ∧ 0 ∈ buf

/-- The length of the key is an `int`, and where the text is chained, so is twice the size of what is
written. -/
def Sized (bfMode : List Byte) (key : Key) (text : Text) : Prop :=
  0 ≤ toCInt (keyOf key).length ∧
    (Chained bfMode key →
      ((text.1.length + 8 + padding text.1.length) * 2 + 2 : Int) ≤ intMax)

/-- Behind the mark of a chained string there is something, and the lengths are numbers of an
`int`. -/
def Readable (key : Key) (str : Text) : Prop :=
  if str.1.head? = some 42#8 then CbcReads (keyOf key) (str.1.drop 1)
  else 0 ≤ toCInt (keyOf key).length

/-! ### By the mark -/

section Mark

variable {init bx : Boxes} {iv : Iv} {bfMode key str : List Byte}

theorem keyOf_of_ecb (h : startsWith key "ecb:" = true) : keyOf key = key.drop 4 :=
  if_pos (.inl h)

theorem keyOf_of_cbc (h : startsWith key "cbc:" = true) : keyOf key = key.drop 4 :=
  if_pos (.inr h)

theorem keyOf_of_neither (hecb : ¬ startsWith key "ecb:" = true)
    (hcbc : ¬ startsWith key "cbc:" = true) : keyOf key = key :=
  if_neg (not_or.2 ⟨hecb, hcbc⟩)

theorem decryptString_eq (init : Boxes) (key str : List Byte) :
    decryptString init key str =
      if str.head? = some 42#8 then decryptStringCbc init (keyOf key) (str.drop 1)
      else decryptStringEcb init (keyOf key) str := by
  unfold decryptString
  by_cases hecb : startsWith key "ecb:" = true
  · rw [if_pos hecb, keyOf_of_ecb hecb]
  rw [if_neg hecb]
  by_cases hcbc : startsWith key "cbc:" = true
  · rw [if_pos hcbc, keyOf_of_cbc hcbc, ite_not]
  · rw [if_neg hcbc, keyOf_of_neither hecb hcbc, ite_not]

theorem not_ecb_of_cbc (h : modeIs bfMode "cbc" = true) : ¬ modeIs bfMode "ecb" = true := by
  unfold modeIs at h ⊢
  rw [beq_iff_eq.1 h]
  decide

theorem encryptString_eq (init : Boxes) (iv : Iv) (bfMode key str : List Byte) :
    encryptString init iv bfMode key str =
      if Chained bfMode key then encryptStringCbc init iv (keyOf key) str
      else encryptStringEcb init (keyOf key) str := by
  unfold encryptString
  by_cases hecb : startsWith key "ecb:" = true
  · have hchained : ¬ Chained bfMode key := fun h => by
      rw [h.1] at hecb
      cases hecb
    rw [if_pos hecb, if_neg hchained, keyOf_of_ecb hecb]
  have hfalse : startsWith key "ecb:" = false := by simpa using hecb
  rw [if_neg hecb]
  by_cases hcbc : startsWith key "cbc:" = true
  · rw [if_pos hcbc, if_pos ⟨hfalse, .inl hcbc⟩, keyOf_of_cbc hcbc]
  rw [if_neg hcbc, keyOf_of_neither hecb hcbc]
  by_cases hmode : modeIs bfMode "cbc" = true
  · rw [if_neg (not_ecb_of_cbc hmode), if_pos hmode, if_pos ⟨hfalse, .inr hmode⟩]
  · have hchained : ¬ Chained bfMode key := fun h => h.2.elim hcbc hmode
    rw [if_neg hmode, if_neg hchained, ite_self]

end Mark

/-! ### Both claims -/

section Both

variable {init : Boxes} {iv : Iv} {bfMode : List Byte} {key : Key} {text : Text}

theorem head?_of_mark {c enc : List Byte} (h : c = 42#8 :: enc) : c.head? = some 42#8 := by
  rw [h]
  rfl

theorem roundTrip_ecb (hchained : ¬ Chained bfMode key) (hkey : 0 ≤ toCInt (keyOf key).length) :
    RoundTrip init iv bfMode key text := by
  obtain ⟨bx, hbx⟩ := exists_blowfishInit init hkey
  obtain ⟨c, buf, henc, hmem, hdec, htext⟩ := ecb_roundTrip hbx key.2 text.2
  refine ⟨c, buf, ?_, ?_, htext⟩
  · rw [encryptString_eq, if_neg hchained, henc]
  · have hmark : (cstr c).head? ≠ some 42#8 := fun h =>
      (hmem 42#8 (List.mem_of_head? h)).2 rfl
    rw [decryptString_eq, if_neg hmark, hdec]

theorem kept_of_small {n : Nat} (h : ((n + 8 + padding n) * 2 + 2 : Int) ≤ intMax) :
    toCInt (n + 8) = n + 8 := by
  have hmax : intMax = 2147483647 := rfl
  rw [toCInt]
  omega

theorem padding_add_eight (n : Nat) : padding (n + 8) = padding n := by
  rw [padding, padding]
  omega

theorem roundTrip_cbc (hchained : Chained bfMode key) (hsized : Sized bfMode key text) :
    RoundTrip init iv bfMode key text := by
  obtain ⟨hkey, hsize⟩ := hsized
  obtain ⟨bx, hbx⟩ := exists_blowfishInit init hkey
  have hsmall := hsize hchained
  have hlen := kept_of_small hsmall
  have hkept : kept text.1 = text.1.length + 8 := by
    rw [kept, hlen]
    omega
  have hfits : CbcFits text.1 := by
    refine ⟨by omega, ?_⟩
    rw [hkept, padding_add_eight]
    push_cast
    exact hsmall
  obtain ⟨c, enc, buf, henc, hc, hdec, htext⟩ :=
    cbc_roundTrip key.2 hbx text.2 iv hfits (by omega)
  refine ⟨c, buf, ?_, ?_, ?_⟩
  · rw [encryptString_eq, if_pos hchained, henc]
  · rw [decryptString_eq, if_pos (head?_of_mark hc), hc]
    exact hdec
  · rw [htext, hkept, Nat.add_sub_cancel, List.take_length]

theorem sized_of_roundTrip_cbc (hchained : Chained bfMode key)
    (h : RoundTrip init iv bfMode key text) : Sized bfMode key text := by
  obtain ⟨c, buf, henc, hdec, htext⟩ := h
  rw [encryptString_eq, if_pos hchained] at henc
  obtain ⟨hkey, hfits, hnone⟩ := fits_of_encryptStringCbc key.2 henc
  obtain ⟨bx, hbx⟩ := exists_blowfishInit init hkey
  have hpos : 0 < kept text.1 := by
    by_contra hzero
    have hzero' : kept text.1 = 0 := by omega
    rw [hnone hzero', decryptString_eq,
      if_pos (show ([42#8] : List Byte).head? = some 42#8 from rfl)] at hdec
    have hempty : toCInt (List.drop 1 [42#8]).length = 0 := by decide
    rw [decryptStringCbc_empty hempty key.2] at hdec
    cases hdec
  obtain ⟨c', enc, buf', henc', hc, hdec', htext'⟩ := cbc_roundTrip key.2 hbx text.2 iv hfits hpos
  obtain rfl : c = c' := Option.some.inj (henc.symm.trans henc')
  rw [decryptString_eq, if_pos (head?_of_mark hc), hc] at hdec
  obtain rfl : buf = buf' := Option.some.inj (hdec.symm.trans hdec')
  have hlen : text.1.length ≤ kept text.1 - 8 := by
    have hcut := congrArg List.length (htext'.symm.trans htext)
    rw [List.length_take] at hcut
    omega
  have hkept : kept text.1 = text.1.length + 8 := by
    rw [kept, toCInt] at hlen hpos ⊢
    omega
  refine ⟨hkey, fun _ => ?_⟩
  have hsize := hfits.2
  rw [hkept, padding_add_eight] at hsize
  push_cast at hsize
  exact hsize

theorem roundTrip_iff (init : Boxes) (iv : Iv) (bfMode : List Byte) (key : Key) (text : Text) :
    RoundTrip init iv bfMode key text ↔ Sized bfMode key text := by
  by_cases hchained : Chained bfMode key
  · exact ⟨sized_of_roundTrip_cbc hchained, roundTrip_cbc hchained⟩
  refine ⟨fun ⟨c, buf, henc, _⟩ => ⟨?_, fun h => absurd h hchained⟩, fun h =>
    roundTrip_ecb hchained h.1⟩
  rw [encryptString_eq, if_neg hchained] at henc
  by_contra hneg
  unfold encryptStringEcb at henc
  dsimp only at henc
  rw [if_neg key.2, (blowfishInit_eq_none_iff init _).2 (by omega)] at henc
  cases henc

theorem returns_iff (init : Boxes) (key : Key) (str : Text) :
    Returns init key str ↔ Readable key str := by
  unfold Returns Readable
  rw [decryptString_eq]
  by_cases hmark : str.1.head? = some 42#8
  · rw [if_pos hmark, if_pos hmark]
    exact decryptStringCbc_safe_iff key.2
  rw [if_neg hmark, if_neg hmark]
  refine ⟨fun ⟨buf, hbuf, _⟩ => ?_, fun h => ?_⟩
  · by_contra hneg
    unfold decryptStringEcb at hbuf
    dsimp only at hbuf
    rw [if_neg key.2, (blowfishInit_eq_none_iff init _).2 (by omega)] at hbuf
    cases hbuf
  · obtain ⟨bx, hbx⟩ := exists_blowfishInit init h
    exact decryptStringEcb_safe hbx key.2 str.2

end Both

/-! ### What holds of the two functions -/

/-- A text is read as it was written exactly if the sizes are numbers of an `int`, and a string is
read safely exactly if there is something behind its mark. -/
theorem decryptString_encryptString_iff (init : Boxes) (iv : Iv) (bfMode : List Byte) (key : Key)
    (text str : Text) :
    (RoundTrip init iv bfMode key text ↔ Sized bfMode key text) ∧
      (Returns init key str ↔ Readable key str) :=
  ⟨roundTrip_iff init iv bfMode key text, returns_iff init key str⟩

/-- Nothing stands behind the mark: the vector that is cut off is not there. -/
theorem not_decryptString :
    ¬ ∀ init : Boxes, Returns init ⟨literal "key", by decide⟩ ⟨literal "*", by decide⟩ := by
  intro h
  obtain ⟨buf, hbuf, -⟩ := h ⟨Vector.replicate 18 0, Vector.replicate 4 (Vector.replicate 256 0)⟩
  rw [decryptString_eq, if_pos (by decide)] at hbuf
  rw [decryptStringCbc_empty (by decide) (by decide)] at hbuf
  cases hbuf

end Eggdrop.Blowfish
