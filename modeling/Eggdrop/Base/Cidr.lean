import Mathlib.Data.BitVec
import Mathlib.Logic.Relation
import Eggdrop.Base.CString

/-!
# Cidr — addresses, and their comparison by a prefix (match.c, libop/src/commio.c)

`op_inet_pton` reads an address of one of two families, and `cidr_match` compares the first bits of
two of them.

* `length_opInetPton`: what is read fills the buffer.
* `compWithMask_iff`: whole bytes and the first bits of one more are the first bits.
* `cidrMatch_spec`: `cidr_match` compares as many bits as it is told to.
-/

open List

namespace Eggdrop.Cidr

/-! ### Addresses -/

/-- An `unsigned char` of an address. -/
abbrev Octet := BitVec 8

/-- `AF_INET` and `AF_INET6`. -/
inductive Family
  | inet
  | inet6
  deriving DecidableEq

namespace Family

/-- `INADDRSZ` and `IN6ADDRSZ`. -/
def bytes : Family → ℕ
  | inet => 4
  | inet6 => 16

/-- `maxbits`. -/
def maxbits : Family → ℕ
  | inet => 32
  | inet6 => 128

theorem maxbits_eq (f : Family) : f.maxbits = 8 * f.bytes := by
  cases f <;> rfl

end Family

/-- The variables of `inet_pton4`: `written` is what stands before `tp`, and `cur` the byte at `tp`. -/
structure Quad where
  sawDigit : Bool
  octets : ℕ
  written : List Octet
  cur : ℕ

/-- The loop of `inet_pton4`. -/
def pton4Loop : CStr → Quad → Option Quad
  | [], q => some q
  | c :: src, q =>
    if isDigit c then
      let new := q.cur * 10 + (c.toNat - 48)
      if 255 < new then none
      else if q.sawDigit then pton4Loop src { q with cur := new }
      else if 4 < q.octets + 1 then none
      else pton4Loop src { q with cur := new, octets := q.octets + 1, sawDigit := true }
    else if c = '.' ∧ q.sawDigit then
      if q.octets = 4 then none
      else pton4Loop src ⟨false, q.octets, q.written ++ [BitVec.ofNat 8 q.cur], 0⟩
    else none

/-- `inet_pton4`. -/
def inetPton4 (src : CStr) : Option (List Octet) :=
  (pton4Loop src ⟨false, 0, [], 0⟩).bind fun q =>
    if q.octets < 4 then none else some (q.written ++ [BitVec.ofNat 8 q.cur])

/-- The place of a character in `xdigits`. -/
def xdigit (c : Char) : Option ℕ := "0123456789abcdef".toList.idxOf? c

/-- The variables of `inet_pton6`; `colonp` is an index into `tmp`. -/
structure Hextets where
  curtok : CStr
  sawXdigit : Bool
  val : ℕ
  written : List Octet
  colonp : Option ℕ

/-- The two bytes of `val`. -/
def hextet (val : ℕ) : List Octet := [BitVec.ofNat 8 (val / 256), BitVec.ofNat 8 val]

/-- The loop of `inet_pton6`. -/
def pton6Loop : CStr → Hextets → Option Hextets
  | [], w => some w
  | c :: src, w =>
    match xdigit (toLower c) with
    | some d =>
      let val := w.val * 16 + d
      if 0xffff < val then none else pton6Loop src { w with val, sawXdigit := true }
    | none =>
      if c = ':' then
        if w.sawXdigit = false then
          if w.colonp.isSome then none
          else pton6Loop src { w with curtok := src, colonp := some w.written.length }
        else if src = [] then none
        else if 16 < w.written.length + 2 then none
        else pton6Loop src ⟨src, false, 0, w.written ++ hextet w.val, w.colonp⟩
      else if src ≠ [] ∧ c = '.' then
        if w.written.length + 4 ≤ 16 then
          (inetPton4 w.curtok).map fun b => { w with written := w.written ++ b, sawXdigit := false }
        else none
      else pton6Loop src w

/-- What follows the loop of `inet_pton6`. -/
def pton6Finish (w : Hextets) : Option (List Octet) :=
  if w.sawXdigit ∧ 16 < w.written.length + 2 then none
  else
    let tmp := if w.sawXdigit then w.written ++ hextet w.val else w.written
    match w.colonp with
    | some k =>
      if tmp.length = 16 then none
      else some (tmp.take k ++ List.replicate (16 - tmp.length) 0 ++ tmp.drop k)
    | none => if tmp.length = 16 then some tmp else none

/-- `inet_pton6`. -/
def inetPton6 (src : CStr) : Option (List Octet) :=
  if src.head? = some ':' then
    if src.tail.head? = some ':' then
      (pton6Loop src.tail ⟨src.tail, false, 0, [], none⟩).bind pton6Finish
    else none
  else (pton6Loop src ⟨src, false, 0, [], none⟩).bind pton6Finish

/-- `op_inet_pton`; the text of an IPv4 address is put into a buffer of `HOSTIPLEN` characters. -/
def opInetPton : Family → CStr → Option (List Octet)
  | .inet, src => inetPton4 src
  | .inet6, src =>
    if (inetPton4 src).isSome then inetPton6 (("::ffff:".toList ++ src).take 52) else inetPton6 src

/-! ### The comparison -/

/-- `comp_with_mask`. -/
def compWithMask (addr dest : List Octet) (mask : ℕ) : Bool :=
  if addr.take (mask / 8) ≠ dest.take (mask / 8) then false
  else if mask % 8 = 0 then true
  else
    let m : Octet := BitVec.ofNat 8 (0xFF <<< (8 - mask % 8))
    addr.getD (mask / 8) 0 &&& m == dest.getD (mask / 8) 0 &&& m

/-- `cidr_match`. -/
def cidrMatch (m n : CStr) (count : ℤ) : ℤ :=
  let af : Family := if ':' ∈ m ∨ ':' ∈ n then .inet6 else .inet
  if af.maxbits < count then 0
  else
    match opInetPton af m, opInetPton af n with
    | some block, some addr =>
      if count < 1 then 1 else if compWithMask addr block count.toNat then count else 0
    | _, _ => 0

/-! ### What is read -/

/-- How many octets there are is known from how many have been written. -/
structure Quad.Valid (q : Quad) : Prop where
  octets : q.octets = q.written.length + if q.sawDigit then 1 else 0
  few : q.octets ≤ 4
  room : q.sawDigit = false → q.octets ≤ 3

theorem valid_pton4Loop {src : CStr} {q q' : Quad} (h : q.Valid) (hq : pton4Loop src q = some q') :
    q'.Valid := by
  induction src generalizing q with
  | nil =>
    obtain rfl := Option.some.inj hq
    exact h
  | cons c src ih =>
    obtain ⟨saw, octets, written, cur⟩ := q
    obtain ⟨hoct, hfew, hroom⟩ := h
    rw [pton4Loop] at hq
    dsimp only at hq hoct hfew hroom
    split at hq
    · split at hq
      · cases hq
      · split at hq
        · exact ih ⟨hoct, hfew, hroom⟩ hq
        · next hsaw =>
          rw [if_neg hsaw] at hoct
          split at hq
          · cases hq
          · exact ih ⟨by rw [hoct]; rfl, by dsimp only; omega, by simp⟩ hq
    · split at hq
      · next hdot =>
        rw [if_pos hdot.2] at hoct
        split at hq
        · cases hq
        · exact ih ⟨by simp [hoct], hfew, by dsimp only; omega⟩ hq
      · cases hq

theorem length_inetPton4 {src : CStr} {x : List Octet} (h : inetPton4 src = some x) :
    x.length = 4 := by
  obtain ⟨q, hq, hx⟩ := Option.bind_eq_some_iff.1 h
  have hvalid := valid_pton4Loop (q := ⟨false, 0, [], 0⟩) ⟨rfl, by decide, by simp⟩ hq
  obtain ⟨hoct, hfew, hroom⟩ := hvalid
  split at hx
  · cases hx
  · next hlt =>
    obtain rfl := Option.some.inj hx
    rw [length_append, length_singleton]
    cases hsaw : q.sawDigit with
    | false =>
      have := hroom hsaw
      omega
    | true =>
      rw [hsaw, if_pos rfl] at hoct
      omega

/-- What has been written fits, and the place of a `::` is in it. -/
structure Hextets.Valid (w : Hextets) : Prop where
  fits : w.written.length ≤ 16
  place : ∀ k ∈ w.colonp, k ≤ w.written.length

theorem valid_pton6Loop {src : CStr} {w w' : Hextets} (h : w.Valid)
    (hw : pton6Loop src w = some w') : w'.Valid := by
  induction src generalizing w with
  | nil =>
    obtain rfl := Option.some.inj hw
    exact h
  | cons c src ih =>
    obtain ⟨hfits, hplace⟩ := h
    rw [pton6Loop] at hw
    dsimp only at hw
    split at hw
    · split at hw
      · cases hw
      · refine ih ?_ hw
        exact ⟨hfits, hplace⟩
    · split at hw
      · split at hw
        · split at hw
          · cases hw
          · refine ih ?_ hw
            exact ⟨hfits, by simp⟩
        · split at hw
          · cases hw
          · split at hw
            · cases hw
            · refine ih ?_ hw
              constructor
              · simp only [length_append, hextet, length_cons, length_nil]
                omega
              · intro k hk
                rw [length_append]
                exact Nat.le_trans (hplace k hk) (Nat.le_add_right _ _)
      · split at hw
        · split at hw
          · obtain ⟨b, hb, rfl⟩ := Option.map_eq_some_iff.1 hw
            have hlen := length_inetPton4 hb
            refine ⟨?_, ?_⟩
            · rw [length_append]
              omega
            · intro k hk
              rw [length_append]
              exact Nat.le_trans (hplace k hk) (Nat.le_add_right _ _)
          · cases hw
        · exact ih ⟨hfits, hplace⟩ hw

theorem length_pton6Finish {w : Hextets} {x : List Octet} (h : w.Valid)
    (hx : pton6Finish w = some x) : x.length = 16 := by
  obtain ⟨hfits, hplace⟩ := h
  rw [pton6Finish] at hx
  split at hx
  · cases hx
  · next hroom =>
    dsimp only at hx
    have htmp : (if w.sawXdigit then w.written ++ hextet w.val else w.written).length ≤ 16 ∧
        w.written.length ≤ (if w.sawXdigit then w.written ++ hextet w.val else w.written).length := by
      split
      · next hsaw =>
        simp only [hsaw, true_and, length_append, hextet, length_cons, length_nil] at hroom ⊢
        omega
      · exact ⟨hfits, Nat.le_refl _⟩
    generalize (if w.sawXdigit then w.written ++ hextet w.val else w.written) = tmp at hx htmp
    split at hx
    · next k hk =>
      have hle := hplace k hk
      split at hx
      · cases hx
      · obtain rfl := Option.some.inj hx
        simp only [length_append, length_take, length_replicate, length_drop]
        omega
    · split at hx
      · next hlen =>
        obtain rfl := Option.some.inj hx
        exact hlen
      · cases hx

theorem length_inetPton6 {src : CStr} {x : List Octet} (h : inetPton6 src = some x) :
    x.length = 16 := by
  have hall {s t : CStr} (h : (pton6Loop s ⟨t, false, 0, [], none⟩).bind pton6Finish = some x) :
      x.length = 16 := by
    obtain ⟨w, hw, hx⟩ := Option.bind_eq_some_iff.1 h
    exact length_pton6Finish (valid_pton6Loop ⟨by simp, by simp⟩ hw) hx
  rw [inetPton6] at h
  split at h
  · split at h
    · exact hall h
    · cases h
  · exact hall h

theorem length_opInetPton {f : Family} {src : CStr} {x : List Octet} (h : opInetPton f src = some x) :
    x.length = f.bytes := by
  cases f with
  | inet => exact length_inetPton4 h
  | inet6 =>
    rw [opInetPton] at h
    split at h
    · exact length_inetPton6 h
    · exact length_inetPton6 h

/-! ### The first bits -/

/-- A bit of an address. -/
def bit (x : List Octet) (i : ℕ) : Bool := (x.getD (i / 8) 0).getMsbD (i % 8)

/-- The first bits are the same. -/
def SameBits (n : ℕ) (x y : List Octet) : Prop := ∀ i < n, bit x i = bit y i

theorem SameBits.mono {m n : ℕ} {x y : List Octet} (h : SameBits n x y) (hmn : m ≤ n) :
    SameBits m x y :=
  fun i hi => h i (Nat.lt_of_lt_of_le hi hmn)

theorem equivalence_sameBits (n : ℕ) : Equivalence (SameBits n) where
  refl _ _ _ := rfl
  symm h i hi := (h i hi).symm
  trans h h' i hi := (h i hi).trans (h' i hi)

theorem octet_eq_iff (a b : Octet) : a = b ↔ ∀ j < 8, a.getMsbD j = b.getMsbD j := by
  constructor
  · rintro rfl j -
    rfl
  · intro h
    apply BitVec.eq_of_getMsbD_eq
    exact h

theorem getMsbD_mask : ∀ r < 8, ∀ j < 8,
    (BitVec.ofNat 8 (0xFF <<< (8 - r))).getMsbD j = decide (j < r) := by
  decide

/-- The bits of a byte that the mask leaves. -/
theorem masked_eq_iff (a b : Octet) {r : ℕ} (hr : r < 8) :
    a &&& BitVec.ofNat 8 (0xFF <<< (8 - r)) = b &&& BitVec.ofNat 8 (0xFF <<< (8 - r)) ↔
      ∀ j < r, a.getMsbD j = b.getMsbD j := by
  rw [octet_eq_iff]
  constructor
  · intro h j hj
    have hbit := h j (by omega)
    rw [BitVec.getMsbD_and, BitVec.getMsbD_and, getMsbD_mask r hr j (by omega)] at hbit
    simpa [hj] using hbit
  · intro h j hj
    rw [BitVec.getMsbD_and, BitVec.getMsbD_and, getMsbD_mask r hr j hj]
    by_cases hjr : j < r
    · rw [h j hjr]
    · simp [hjr]

/-- The first bytes are the first bits. -/
theorem take_eq_iff {x y : List Octet} {k : ℕ} (hlen : x.length = y.length) (hk : k ≤ x.length) :
    x.take k = y.take k ↔ SameBits (8 * k) x y := by
  have hbytes : x.take k = y.take k ↔ ∀ i < k, x.getD i 0 = y.getD i 0 := by
    constructor
    · intro h i hi
      have hget := congrArg (·.getD i 0) h
      simpa [List.getD_eq_getElem?_getD, hi] using hget
    · intro h
      apply ext_getElem
      · rw [length_take, length_take, hlen]
      · intro i hi _
        have hi' : i < k := by
          rw [length_take] at hi
          omega
        have hget := h i hi'
        rw [getElem_take, getElem_take]
        simpa [List.getD_eq_getElem?_getD, show i < x.length by omega,
          show i < y.length by omega] using hget
  rw [hbytes]
  constructor
  · intro h i hi
    rw [bit, bit, h (i / 8) (by omega)]
  · intro h i hi
    rw [octet_eq_iff]
    intro j hj
    have hbit := h (8 * i + j) (by omega)
    rwa [bit, bit, show (8 * i + j) / 8 = i by omega, show (8 * i + j) % 8 = j by omega] at hbit

theorem compWithMask_iff {x y : List Octet} {n : ℕ} (hlen : x.length = y.length)
    (hn : n ≤ 8 * x.length) : compWithMask x y n = true ↔ SameBits n x y := by
  have htake := take_eq_iff (k := n / 8) hlen (by omega)
  rw [compWithMask]
  split
  · next hne =>
    refine iff_of_false Bool.false_ne_true ?_
    intro h
    exact hne (htake.2 (h.mono (by omega)))
  · next heq =>
    have hwhole := htake.1 (not_not.1 heq)
    split
    · next hmod =>
      rw [show 8 * (n / 8) = n by omega] at hwhole
      exact iff_of_true rfl hwhole
    · rw [beq_iff_eq, masked_eq_iff _ _ (Nat.mod_lt n (by decide))]
      constructor
      · intro h i hi
        by_cases hi' : i < 8 * (n / 8)
        · exact hwhole i hi'
        · have hbit := h (i % 8) (by omega)
          rwa [show n / 8 = i / 8 by omega] at hbit
      · intro h j hj
        have hbit := h (8 * (n / 8) + j) (by omega)
        rwa [bit, bit, show (8 * (n / 8) + j) / 8 = n / 8 by omega,
          show (8 * (n / 8) + j) % 8 = j by omega] at hbit

/-! ### Addresses of one family -/

/-- An address of a family: a text that is read as one, with a colon exactly if it is IPv6. -/
structure Address (f : Family) where
  text : CStr
  octets : List Octet
  reads : opInetPton f text = some octets
  colon : ':' ∈ text ↔ f = .inet6

theorem cidrMatch_spec {f : Family} (a b : Address f) {count : ℕ} (h : count ≤ f.maxbits) :
    cidrMatch a.text b.text count ≠ 0 ↔ SameBits count a.octets b.octets := by
  have hfamily : (if ':' ∈ a.text ∨ ':' ∈ b.text then Family.inet6 else Family.inet) = f := by
    have hcolon : (':' ∈ a.text ∨ ':' ∈ b.text) ↔ f = .inet6 := by
      rw [a.colon, b.colon, or_self]
    rw [if_congr hcolon rfl rfl]
    cases f <;> rfl
  have hlen : b.octets.length = a.octets.length :=
    (length_opInetPton b.reads).trans (length_opInetPton a.reads).symm
  have hfits : count ≤ 8 * b.octets.length := by
    rw [length_opInetPton b.reads, ← f.maxbits_eq]
    exact h
  rw [cidrMatch, hfamily, if_neg (by omega), a.reads, b.reads]
  dsimp only
  split
  · next hlt =>
    obtain rfl : count = 0 := by omega
    refine iff_of_true (by decide) ?_
    intro i hi
    cases hi
  · next hge =>
    have hcomp := compWithMask_iff hlen hfits
    rw [Int.toNat_natCast]
    split
    · next hsame =>
      refine iff_of_true (by omega) ?_
      exact (equivalence_sameBits count).symm (hcomp.1 hsame)
    · next hdiff =>
      refine iff_of_false (not_not.2 rfl) ?_
      intro hsame
      exact hdiff (hcomp.2 ((equivalence_sameBits count).symm hsame))

/-- The first bits are compared, as many as are asked for: for each number of them an equivalence of
the addresses of one family, which gets finer with the number. -/
theorem cidrMatch_sameBits (f : Family) {count : ℕ} (h : count ≤ f.maxbits) :
    (∀ a b : Address f, cidrMatch a.text b.text count ≠ 0 ↔ SameBits count a.octets b.octets) ∧
      Equivalence (fun a b : Address f => cidrMatch a.text b.text count ≠ 0) ∧
      ∀ a b : Address f, cidrMatch a.text b.text count ≠ 0 →
        ∀ c ≤ count, cidrMatch a.text b.text (c : ℕ) ≠ 0 := by
  have hspec (a b : Address f) := cidrMatch_spec a b h
  refine ⟨hspec, ?_, ?_⟩
  · simp only [hspec]
    exact (equivalence_sameBits count).comap Address.octets
  · intro a b hab c hc
    rw [cidrMatch_spec a b (Nat.le_trans hc h)]
    exact ((hspec a b).1 hab).mono hc

/-- `192.168.1.0` and `192.168.1.100` by 24 bits. -/
theorem cidrMatch_sameBits_subnet :
    24 ≤ Family.inet.maxbits ∧
      ∃ a b : Address .inet, a.text = "192.168.1.0".toList ∧ b.text = "192.168.1.100".toList ∧
        cidrMatch a.text b.text 24 ≠ 0 := by
  have ha : opInetPton .inet "192.168.1.0".toList = some [192, 168, 1, 0] := by decide
  have hb : opInetPton .inet "192.168.1.100".toList = some [192, 168, 1, 100] := by decide
  refine ⟨by decide, ⟨_, _, ha, by decide⟩, ⟨_, _, hb, by decide⟩, rfl, rfl, ?_⟩
  apply ((cidrMatch_sameBits .inet (by decide)).1 _ _).2
  show ∀ i < 24, bit [192, 168, 1, 0] i = bit [192, 168, 1, 100] i
  decide

end Eggdrop.Cidr
