import Eggdrop.Blowfish.Ecb
import Eggdrop.Users.PasswordRuns

/-!
# BlowfishPass — logins where blowfish.mod hashes the passwords

* `blowfishEncryptPass_eq`: the Blowfish hash depends on no more than 72 bytes, for which the password
  is read round and round.
* `passMatch_flatten_replicate`: so a user whose password it keeps can write the password several
  times over.
-/

namespace Eggdrop.Users

open List Blowfish

/-! ### Blowfish -/

def salt1 : BitVec 32 := 0xdeadd061
def salt2 : BitVec 32 := 0x23f6b095

/-- The bytes of a text. -/
def keyBytes (text : CStr) : List Byte := text.map fun c => BitVec.ofNat 8 c.toNat

/-- `blowfish_encrypt_pass`, for a password that is no longer than passwords are. -/
def blowfishEncryptPass (init : Boxes) (text : CStr) : CStr :=
  '+' :: (blockText (blowfishEncipher (boxesOf init (keyBytes text)) (salt1, salt2))).map fun b =>
    Char.ofNat b.toNat

/-- The byte of a key at a place, where the key is read round and round. -/
def around (key : List Byte) (k : ℕ) : Byte := key.getD (k % key.length) 0

theorem keyWord_eq (key : List Byte) (i : ℕ) :
    keyWord key (4 * i % key.length) =
      word (around key (4 * i)) (around key (4 * i + 1)) (around key (4 * i + 2))
        (around key (4 * i + 3)) := by
  simp [keyWord, around, Nat.mod_add_mod]

theorem boxesOf_eq (init : Boxes) {key key' : List Byte} (hkey : key ≠ []) (hkey' : key' ≠ [])
    (h : ∀ k < 72, around key k = around key' k) : boxesOf init key = boxesOf init key' := by
  have hP : (init.P.mapIdx fun i p => p ^^^ keyWord key (4 * i % key.length)) =
      init.P.mapIdx fun i p => p ^^^ keyWord key' (4 * i % key'.length) := by
    ext i hi : 1
    rw [Vector.getElem_mapIdx, Vector.getElem_mapIdx, keyWord_eq, keyWord_eq, h _ (by omega),
      h _ (by omega), h _ (by omega), h _ (by omega)]
  unfold boxesOf
  rw [if_neg hkey, if_neg hkey', hP]

theorem blowfishEncryptPass_eq (init : Boxes) {p q : CStr} (hp : p ≠ []) (hq : q ≠ [])
    (h : ∀ k < 72, around (keyBytes p) k = around (keyBytes q) k) :
    blowfishEncryptPass init p = blowfishEncryptPass init q := by
  unfold blowfishEncryptPass
  rw [boxesOf_eq init (by simpa [keyBytes] using hp) (by simpa [keyBytes] using hq) h]

theorem getD_flatten_replicate {α : Type*} (l : List α) (d : α) (n k : ℕ) (hk : k < n * l.length) :
    (replicate n l).flatten.getD k d = l.getD (k % l.length) d := by
  induction n generalizing k with
  | zero => simp at hk
  | succ n ih =>
    rw [replicate_succ, flatten_cons, getD_eq_getElem?_getD]
    by_cases hlt : k < l.length
    · rw [getElem?_append_left hlt, Nat.mod_eq_of_lt hlt, getD_eq_getElem?_getD]
    · have hle : l.length ≤ k := Nat.le_of_not_lt hlt
      rw [getElem?_append_right hle, ← getD_eq_getElem?_getD,
        ih _ (by rw [Nat.succ_mul] at hk; omega), ← Nat.mod_eq_sub_mod hle]

theorem around_flatten_replicate (key : List Byte) {n : ℕ} (hn : 0 < n) (k : ℕ) :
    around (replicate n key).flatten k = around key k := by
  by_cases hkey : key = []
  · simp [hkey, around]
  have hpos : 0 < key.length := length_pos_iff.2 hkey
  have hlen : (replicate n key).flatten.length = n * key.length := by simp
  unfold around
  rw [hlen, getD_flatten_replicate _ _ _ _ (Nat.mod_lt _ (Nat.mul_pos hn hpos)),
    Nat.mod_mod_of_dvd _ (Nat.dvd_mul_left ..)]

theorem blowfishEncryptPass_replicate (init : Boxes) {p : CStr} (hp : p ≠ []) {n : ℕ} (hn : 0 < n) :
    blowfishEncryptPass init (replicate n p).flatten = blowfishEncryptPass init p := by
  refine blowfishEncryptPass_eq init ?_ hp fun k _ => ?_
  · obtain ⟨n, rfl⟩ := Nat.exists_eq_succ_of_ne_zero hn.ne'
    simp [replicate_succ, hp]
  · have hbytes : keyBytes (replicate n p).flatten = (replicate n (keyBytes p)).flatten := by
      simp [keyBytes, map_flatten]
    rw [hbytes, around_flatten_replicate _ hn]

/-- Where only the Blowfish hash of a password is kept, the password written several times over logs
in as well, as long as the text is no longer than passwords are. -/
theorem passMatch_flatten_replicate {init : Boxes} {env : Env} (verifyPass2 : VerifyPass2)
    {u : Userrec} {h : Hashes} (hin : h.In u.entries) (hbot : u.flags.has userBot = false)
    (hpass : env.hooks.encryptPass = some (blowfishEncryptPass init))
    (hpass2 : env.hooks.encryptPass2 = none) {p : CStr} (hp : p ≠ []) (hdash : p.head? ≠ some '-')
    (hstored : h.pass = some (blowfishEncryptPass init p)) {n : ℕ} (hn : 0 < n)
    (hlen : n * p.length ≤ passwordmax) :
    ∃ u', u.passMatch env verifyPass2 (replicate n p).flatten = .ok (true, u') := by
  have hdoes := Hashes.login_in env verifyPass2 hin (replicate n p).flatten
  obtain ⟨m, rfl⟩ := Nat.exists_eq_succ_of_ne_zero hn.ne'
  have hnil : (replicate (m + 1) p).flatten ≠ [] := by simp [replicate_succ, hp]
  have hhead : (replicate (m + 1) p).flatten.head? ≠ some '-' := by
    obtain ⟨c, p, rfl⟩ := exists_cons_of_ne_nil hp
    simpa [replicate_succ] using hdash
  have htake : (replicate (m + 1) p).flatten.take passwordmax = (replicate (m + 1) p).flatten :=
    take_of_length_le (by simpa using hlen)
  have hlogin : h.login env.hooks false verifyPass2 (replicate (m + 1) p).flatten = .ok (true, h) := by
    unfold Hashes.login Hashes.used Hashes.compare
    rw [if_neg hhead]
    simp only [hpass2, Option.isSome_none, Bool.false_eq_true, if_false, hstored, if_neg hnil, hpass,
      htake, blowfishEncryptPass_replicate init hp hn, ne_eq, not_true_eq_false, Option.bind_none]
  rw [hbot, hlogin] at hdoes
  rcases hdoes with ⟨habort, -⟩ | ⟨b, h', es, hok, hmatch, -⟩
  · cases habort
  · cases hok
    exact ⟨_, hmatch⟩

section Secret

def blowfishEnv : Env :=
  ⟨⟨some (blowfishEncryptPass zeroBoxes), none, false, fun _ _ => false⟩, [], fun _ _ => 0, 0, 0⟩

def secretUser : Userrec :=
  ⟨0, "someone".toList, 0, 0, [],
    [.typed .pass (.string (blowfishEncryptPass zeroBoxes "secret".toList))], false⟩

theorem in_secretUser :
    (Hashes.mk (some (blowfishEncryptPass zeroBoxes "secret".toList)) none).In secretUser.entries := by
  have hnil : Stores [] fun _ => .null := ⟨nodup_nil, fun e => by simp [Value.isNull]⟩
  exact ⟨_, hnil.cons .pass rfl rfl, Function.update_self .., rfl⟩

theorem passMatch_secret_twice :
    ∃ u', secretUser.passMatch blowfishEnv (fun _ _ => none) (replicate 2 "secret".toList).flatten =
      .ok (true, u') :=
  passMatch_flatten_replicate _ in_secretUser rfl rfl rfl (by decide) (by decide) rfl (by decide)
    (by decide)

end Secret

end Eggdrop.Users
