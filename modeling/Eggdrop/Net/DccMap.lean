import Mathlib.Data.Int.Notation
import Mathlib.Logic.Function.Basic
import Eggdrop.Base.CString
import Eggdrop.Lib.Ensures

/-!
# DccMap — finding a connection by its socket (src/dccutil.c)

`dcc` is an array of `max_dcc` entries, of which the first `dcc_total` are in use.  Next to it
stands `sock_dcc_map`, which says for every small socket number at what index it was seen last.
Nobody tells the map when a socket is assigned: the lookups look at the entry it points to, and scan
the table if that is not the one.

* `Dcc.Fits`: the entries in use are within the array, in every state a run reaches.
* `findBy_eq`: what a lookup returns, whatever is in the map.
* `findidx_eq_linear`: in every run, where no two connections share a socket, both lookups return
  what a scan of the table does, and leave the table alone.
-/

namespace Eggdrop.Net

/-- The tables of connection types that are told apart: `DCC_LOST` and any other. -/
inductive DccTable where
  | lost
  | table (k : ℕ)
deriving DecidableEq, Repr

/-- `struct dcc_t`, as far as it is looked at here. -/
structure DccEntry where
  sock : ℤ
  type : Option DccTable
deriving DecidableEq, Repr

/-- `op_memzero` on an entry. -/
def DccEntry.zero : DccEntry := ⟨0, none⟩

inductive DccFault where
  /-- an entry before the array or behind its end -/
  | badIndex
deriving DecidableEq, Repr

/-- `dcc` with `max_dcc` entries, `dcc_total`, the map and the limits of the socket table. -/
structure Dcc where
  dcc : List DccEntry
  total : ℤ
  map : ℕ → ℤ
  mapInited : Bool
  maxSocksTd : ℤ
  maxSocks : ℤ

def sockMapSize : ℕ := 65536

/-- `(unsigned) sock < SOCK_MAP_SIZE`, and the place in the map. -/
def inMap (sock : ℤ) : Option ℕ := if 0 ≤ sock ∧ sock < sockMapSize then some sock.toNat else none

namespace Dcc

/-- `sock_dcc_map_ensure_init`. -/
def ensureInit (s : Dcc) : Dcc :=
  if s.mapInited then s else { s with map := fun _ => -1, mapInited := true }

/-- `dcc_map_set`. -/
def mapSet (sock idx : ℤ) (s : Dcc) : Dcc :=
  match inMap sock with
  | some k => { s.ensureInit with map := Function.update s.ensureInit.map k idx }
  | none => s.ensureInit

/-- `dcc_map_clear`. -/
def mapClear (sock : ℤ) (s : Dcc) : Dcc :=
  match s.mapInited, inMap sock with
  | true, some k => { s with map := Function.update s.map k (-1) }
  | _, _ => s

/-- `dcc[i]`. -/
def entry (i : ℤ) (s : Dcc) : Except DccFault DccEntry :=
  match if 0 ≤ i then s.dcc[i.toNat]? else none with
  | some e => .ok e
  | none => .error .badIndex

/-- `dcc[i] = e`. -/
def put (i : ℤ) (e : DccEntry) (s : Dcc) : Except DccFault Dcc :=
  (s.entry i).map fun _ => { s with dcc := s.dcc.set i.toNat e }

/-! ### The lookups -/

/-- The scan of `k` entries from index `j` on. -/
def scanFrom (p : DccEntry → Bool) (s : Dcc) : ℕ → ℕ → Except DccFault (Option ℕ)
  | 0, _ => .ok none
  | k + 1, j => do
    let e ← s.entry j
    if p e then pure (some j) else scanFrom p s k (j + 1)

/-- The entry the map points to, if it is one in use that `p` accepts. -/
def fastPath (p : DccEntry → Bool) (z : ℤ) (s : Dcc) : Except DccFault (Option ℤ) :=
  match inMap z with
  | none => .ok none
  | some k =>
    if 0 ≤ s.map k ∧ s.map k < s.total then
      (s.entry (s.map k)).map fun e => if p e then some (s.map k) else none
    else .ok none

/-- A lookup of `z`: the O(1) fast path, and the linear scan that heals the map. -/
def findBy (ok : DccEntry → Bool) (z : ℤ) (s : Dcc) : Except DccFault (ℤ × Dcc) := do
  let s := s.ensureInit
  let p := fun e : DccEntry => decide (e.sock = z) && ok e
  match ← fastPath p z s with
  | some j => pure (j, s)
  | none =>
    match ← scanFrom p s s.total.toNat 0 with
    | some j => pure ((j : ℤ), s.mapSet z j)
    | none => pure (-1, s)

section Types

variable (validIdx : DccTable → Bool)

/-- `findidx`; `validIdx` is the flag DCT_VALIDIDX of a type. -/
def findidx (z : ℤ) (s : Dcc) : Except DccFault (ℤ × Dcc) := s.findBy (fun e => e.type.any validIdx) z

/-- `findanyidx`. -/
def findanyidx (z : ℤ) (s : Dcc) : Except DccFault (ℤ × Dcc) := s.findBy (fun _ => true) z

/-! ### The table -/

/-- `op_realloc` of the array; the new entries are what it leaves there. -/
def grow (junk : ℕ → DccEntry) (n : ℕ) (s : Dcc) : Dcc :=
  { s with dcc := s.dcc ++ (List.range' s.dcc.length (n - s.dcc.length)).map junk }

/-- `increase_socks_max` in the main thread, and whether there is more room. -/
def increaseSocksMax (junk : ℕ → DccEntry) (s : Dcc) : Bool × Dcc :=
  let s := if s.maxSocks < 1 then { s with maxSocks := 1 } else s
  if s.maxSocksTd = s.maxSocks then (false, s)
  else
    let s := { s with maxSocksTd := min (s.maxSocksTd + 10) s.maxSocks }
    if (s.dcc.length : ℤ) < s.maxSocksTd - 10 then (true, s.grow junk (s.maxSocksTd - 10).toNat)
    else if s.dcc.length = 0 then (true, s.grow junk 1)
    else (false, s)

/-- `dcc_total == max_dcc && increase_socks_max()`. -/
def makeRoom (junk : ℕ → DccEntry) (s : Dcc) : Bool × Dcc :=
  if s.total = s.dcc.length then s.increaseSocksMax junk else (true, s)

/-- `new_dcc`: the index, or -1. -/
def newDcc (junk : ℕ → DccEntry) (type : Option DccTable) (s : Dcc) : Except DccFault (ℤ × Dcc) :=
  let r := s.makeRoom junk
  if r.1 then
    (put r.2.total ⟨0, type⟩ { r.2 with total := r.2.total + 1 }).map fun s' => (r.2.total, s')
  else .ok (-1, r.2)

/-- `lostdcc`; a socket is passed to the map as an `int`. -/
def lostdcc (n : ℤ) (s : Dcc) : Except DccFault Dcc :=
  if n < 0 ∨ (s.dcc.length : ℤ) ≤ n then .ok s
  else do
    let e ← s.entry n
    (s.mapClear (toCInt e.sock)).put n ⟨-1, some .lost⟩

/-- `changeover_dcc`. -/
def changeoverDcc (i : ℤ) (type : Option DccTable) (s : Dcc) : Except DccFault Dcc := do
  let e ← s.entry i
  s.put i { e with type := type }

/-- `removedcc`. -/
def removedcc (n : ℤ) (s : Dcc) : Except DccFault Dcc := do
  let e ← s.entry n
  let s := { s.mapClear (toCInt e.sock) with total := s.total - 1 }
  if n < s.total then do
    -- dcc[dcc_total] is being moved to slot n
    let last ← s.entry s.total
    (s.mapSet (toCInt last.sock) n).put n last
  else s.put n .zero

/-- The loop of `dcc_remove_lost` at `i`, where `k` is `dcc_total - i`: a round takes one off either
way. -/
def removeLostFrom : ℕ → ℤ → Dcc → Except DccFault Dcc
  | 0, _, s => .ok s
  | k + 1, i, s => do
    let e ← s.entry i
    if e.type = some .lost then do
      let s ← s.put i ⟨-1, none⟩
      let s ← s.removedcc i
      removeLostFrom k i s
    else removeLostFrom k (i + 1) s

/-- `dcc_remove_lost`. -/
def removeLost (s : Dcc) : Except DccFault Dcc := removeLostFrom s.total.toNat 0 s

/-- A socket is assigned, `dcc[i].sock = sock`; none of the map's functions is called. -/
def assign (i sock : ℤ) (s : Dcc) : Except DccFault Dcc := do
  let e ← s.entry i
  s.put i { e with sock := sock }

inductive Call where
  | newDcc (junk : ℕ → DccEntry) (type : Option DccTable)
  | assign (i sock : ℤ)
  | lostdcc (n : ℤ)
  | changeoverDcc (i : ℤ) (type : Option DccTable)
  | removedcc (n : ℤ)
  | removeLost
  | findidx (z : ℤ)
  | findanyidx (z : ℤ)

/-- One call. -/
def step (s : Dcc) : Call → Except DccFault Dcc
  | .newDcc junk type => (s.newDcc junk type).map Prod.snd
  | .assign i sock => s.assign i sock
  | .lostdcc n => s.lostdcc n
  | .changeoverDcc i type => s.changeoverDcc i type
  | .removedcc n => s.removedcc n
  | .removeLost => s.removeLost
  | .findidx z => (s.findidx validIdx z).map Prod.snd
  | .findanyidx z => (s.findanyidx z).map Prod.snd

/-- No table yet, and the map as static memory is. -/
def start (maxSocksTd maxSocks : ℤ) : Dcc := ⟨[], 0, fun _ => 0, false, maxSocksTd, maxSocks⟩

end Types

/-! ### The entries in use are within the array -/

def Fits (s : Dcc) : Prop := s.total ≤ s.dcc.length

@[simp] theorem ensureInit_dcc (s : Dcc) : s.ensureInit.dcc = s.dcc := by
  unfold ensureInit
  split <;> rfl

@[simp] theorem ensureInit_total (s : Dcc) : s.ensureInit.total = s.total := by
  unfold ensureInit
  split <;> rfl

@[simp] theorem mapSet_dcc (s : Dcc) (sock idx : ℤ) : (s.mapSet sock idx).dcc = s.dcc := by
  unfold mapSet
  split <;> simp

@[simp] theorem mapSet_total (s : Dcc) (sock idx : ℤ) : (s.mapSet sock idx).total = s.total := by
  unfold mapSet
  split <;> simp

@[simp] theorem mapClear_dcc (s : Dcc) (sock : ℤ) : (s.mapClear sock).dcc = s.dcc := by
  unfold mapClear
  split <;> rfl

@[simp] theorem mapClear_total (s : Dcc) (sock : ℤ) : (s.mapClear sock).total = s.total := by
  unfold mapClear
  split <;> rfl

/-- A write changes neither the size of the array nor what is in use. -/
theorem put_spec (s : Dcc) (i : ℤ) (e : DccEntry) :
    Ensures (s.put i e) fun s' => s'.dcc.length = s.dcc.length ∧ s'.total = s.total := by
  intro s' h
  unfold put at h
  cases hi : s.entry i with
  | error f =>
    rw [hi] at h
    cases h
  | ok e' =>
    rw [hi] at h
    cases h
    exact ⟨List.length_set, rfl⟩

theorem put_fits {s : Dcc} (hs : s.Fits) (i : ℤ) (e : DccEntry) : Ensures (s.put i e) Fits := by
  refine (put_spec s i e).mono fun s' h => ?_
  unfold Fits
  rw [h.1, h.2]
  exact hs

@[simp] theorem grow_length (s : Dcc) (junk : ℕ → DccEntry) (n : ℕ) :
    (s.grow junk n).dcc.length = max s.dcc.length n := by
  unfold grow
  rw [List.length_append, List.length_map, List.length_range']
  omega

theorem increaseSocksMax_total (s : Dcc) (junk : ℕ → DccEntry) :
    (s.increaseSocksMax junk).2.total = s.total := by
  unfold increaseSocksMax grow
  dsimp only
  split_ifs <;> rfl

theorem increaseSocksMax_length (s : Dcc) (junk : ℕ → DccEntry) :
    s.dcc.length ≤ (s.increaseSocksMax junk).2.dcc.length ∧
      ((s.increaseSocksMax junk).1 = true → s.dcc.length < (s.increaseSocksMax junk).2.dcc.length) := by
  unfold increaseSocksMax
  dsimp only
  split_ifs <;> simp only [grow_length] at * <;> constructor <;> intros <;> first | omega | contradiction

theorem makeRoom_spec {s : Dcc} (hs : s.Fits) (junk : ℕ → DccEntry) :
    (s.makeRoom junk).2.Fits ∧
      ((s.makeRoom junk).1 = true → (s.makeRoom junk).2.total < (s.makeRoom junk).2.dcc.length) := by
  unfold Fits at hs ⊢
  unfold makeRoom
  split
  · have htotal := increaseSocksMax_total s junk
    have hlen := increaseSocksMax_length s junk
    exact ⟨by omega, fun h => by have := hlen.2 h; omega⟩
  · exact ⟨hs, fun _ => by show s.total < s.dcc.length; omega⟩

theorem newDcc_fits {s : Dcc} (hs : s.Fits) (junk : ℕ → DccEntry) (type : Option DccTable) :
    Ensures (s.newDcc junk type) fun r => r.2.Fits := by
  obtain ⟨hfits, hmore⟩ := makeRoom_spec hs junk
  unfold newDcc
  dsimp only
  split
  · next hr =>
    have hput := put_fits (s := { (s.makeRoom junk).2 with total := (s.makeRoom junk).2.total + 1 })
      (hmore hr) (s.makeRoom junk).2.total ⟨0, type⟩
    exact Ensures.map (R := fun r : ℤ × Dcc => r.2.Fits) hput
  · exact .ok hfits

theorem lostdcc_fits {s : Dcc} (hs : s.Fits) (n : ℤ) : Ensures (s.lostdcc n) Fits := by
  unfold lostdcc
  split
  · exact .ok hs
  · refine .bind' fun e _ => put_fits ?_ _ _
    unfold Fits
    rw [mapClear_dcc, mapClear_total]
    exact hs

theorem changeoverDcc_fits {s : Dcc} (hs : s.Fits) (i : ℤ) (type : Option DccTable) :
    Ensures (s.changeoverDcc i type) Fits :=
  .bind' fun _ _ => put_fits hs _ _

theorem assign_fits {s : Dcc} (hs : s.Fits) (i sock : ℤ) : Ensures (s.assign i sock) Fits :=
  .bind' fun _ _ => put_fits hs _ _

theorem removedcc_fits {s : Dcc} (hs : s.Fits) (n : ℤ) : Ensures (s.removedcc n) Fits := by
  unfold removedcc
  refine .bind' fun e _ => ?_
  have hs' : ({ s.mapClear (toCInt e.sock) with total := s.total - 1 } : Dcc).Fits := by
    unfold Fits at hs ⊢
    rw [mapClear_dcc]
    show s.total - 1 ≤ _
    omega
  dsimp only
  split
  · refine .bind' fun last _ => put_fits ?_ _ _
    unfold Fits at hs' ⊢
    rw [mapSet_dcc, mapSet_total]
    exact hs'
  · exact put_fits hs' _ _

theorem removeLostFrom_fits {s : Dcc} (hs : s.Fits) (k : ℕ) (i : ℤ) :
    Ensures (removeLostFrom k i s) Fits := by
  induction k generalizing i s with
  | zero => exact .ok hs
  | succ k ih =>
    rw [removeLostFrom]
    refine .bind' fun e _ => ?_
    split
    · refine (put_fits hs i _).bind fun s' hs' => ?_
      exact (removedcc_fits hs' i).bind fun s'' hs'' => ih hs'' i
    · exact ih hs (i + 1)

/-! ### What a lookup returns -/

/-- A scan of the entries in use: the first index with the socket, or -1. -/
def linear (ok : DccEntry → Bool) (z : ℤ) (s : Dcc) : ℤ :=
  match (s.dcc.take s.total.toNat).findIdx? fun e => decide (e.sock = z) && ok e with
  | some j => j
  | none => -1

theorem entry_eq {s : Dcc} {j : ℕ} (hj : j < s.dcc.length) : s.entry j = .ok s.dcc[j] := by
  unfold entry
  rw [if_pos (Int.natCast_nonneg j), Int.toNat_natCast, List.getElem?_eq_getElem hj]

theorem scanFrom_eq (p : DccEntry → Bool) (s : Dcc) {k j : ℕ} (h : j + k ≤ s.dcc.length) :
    scanFrom p s k j = .ok ((((s.dcc.drop j).take k).findIdx? p).map (j + ·)) := by
  induction k generalizing j with
  | zero => rw [List.take_zero]; rfl
  | succ k ih =>
    have hj : j < s.dcc.length := by omega
    rw [scanFrom, entry_eq hj, List.drop_eq_getElem_cons hj, List.take_succ_cons, List.findIdx?_cons]
    change (if p s.dcc[j] then Except.ok (some j) else scanFrom p s k (j + 1)) = _
    cases hp : p s.dcc[j] with
    | true => rfl
    | false =>
      rw [if_neg Bool.false_ne_true, if_neg Bool.false_ne_true, ih (by omega), Option.map_map]
      congr 2
      funext i
      show j + 1 + i = j + (i + 1)
      omega

/-- What the map points to is returned only if it is in use and accepted. -/
theorem fastPath_spec (p : DccEntry → Bool) (z : ℤ) {s : Dcc} (hs : s.Fits) :
    fastPath p z s = .ok none ∨
      ∃ j : ℕ, ∃ h : j < s.dcc.length,
        fastPath p z s = .ok (some j) ∧ j < s.total ∧ p s.dcc[j] = true ∧ 0 ≤ z := by
  unfold fastPath
  cases hz : inMap z with
  | none => exact .inl rfl
  | some k =>
    dsimp only
    split
    · next hk =>
      have hj : (s.map k).toNat < s.dcc.length := by
        unfold Fits at hs
        omega
      have hcast : ((s.map k).toNat : ℤ) = s.map k := Int.toNat_of_nonneg hk.1
      have he := entry_eq hj
      rw [hcast] at he
      rw [he]
      cases hp : p s.dcc[(s.map k).toNat] with
      | false =>
        left
        show Except.ok (if p _ then _ else _) = _
        rw [hp]
        rfl
      | true =>
        refine .inr ⟨(s.map k).toNat, hj, ?_, by omega, hp, ?_⟩
        · show Except.ok (if p _ then _ else _) = _
          rw [hp, hcast]
          rfl
        · unfold inMap at hz
          split at hz
          · next h => exact h.1
          · cases hz
    · exact .inl rfl

/-- Live sockets are distinct: no two entries in use have the same, -1 apart. -/
def DistinctLive (s : Dcc) : Prop :=
  (s.dcc.take s.total.toNat).Pairwise fun e e' => 0 ≤ e.sock → e.sock ≠ e'.sock

theorem linear_eq_of_distinct {s : Dcc} (hd : s.DistinctLive) {ok : DccEntry → Bool} {z : ℤ}
    (hz : 0 ≤ z) {j : ℕ} (hj : j < s.dcc.length) (ht : j < s.total)
    (hp : (decide (s.dcc[j].sock = z) && ok s.dcc[j]) = true) : s.linear ok z = j := by
  have hlen : j < (s.dcc.take s.total.toNat).length := by
    rw [List.length_take]
    omega
  have hget : (s.dcc.take s.total.toNat)[j] = s.dcc[j] := List.getElem_take
  unfold linear
  cases hf : (s.dcc.take s.total.toNat).findIdx? fun e => decide (e.sock = z) && ok e with
  | none =>
    rw [List.findIdx?_eq_none_iff] at hf
    have := hf _ (List.getElem_mem hlen)
    rw [hget, hp] at this
    cases this
  | some i =>
    obtain ⟨hi, hpi, hfirst⟩ := List.findIdx?_eq_some_iff_getElem.1 hf
    rw [Bool.and_eq_true, decide_eq_true_iff] at hp hpi
    have hle : i ≤ j := by
      by_contra hlt
      refine hfirst j (by omega) ?_
      rw [hget, Bool.and_eq_true, decide_eq_true_iff]
      exact hp
    have heq : i = j := by
      by_contra hne
      refine List.pairwise_iff_getElem.1 hd i j hi hlen (by omega) ?_ ?_
      · rw [hpi.1]
        exact hz
      · rw [hpi.1, hget, hp.1]
    rw [heq]

theorem findBy_eq {s : Dcc} (hs : s.Fits) (hd : s.DistinctLive) (ok : DccEntry → Bool) (z : ℤ) :
    ∃ s', s.findBy ok z = .ok (s.linear ok z, s') ∧ s'.dcc = s.dcc ∧ s'.total = s.total := by
  have hdcc := ensureInit_dcc s
  have htotal := ensureInit_total s
  have hlinear : s.ensureInit.linear ok z = s.linear ok z := by
    unfold linear
    rw [hdcc, htotal]
  have hs' : s.ensureInit.Fits := by
    unfold Fits
    rw [hdcc, htotal]
    exact hs
  have hd' : s.ensureInit.DistinctLive := by
    unfold DistinctLive
    rw [hdcc, htotal]
    exact hd
  rw [← hlinear, ← hdcc, ← htotal]
  unfold findBy
  generalize s.ensureInit = t at *
  dsimp only
  rcases fastPath_spec (fun e => decide (e.sock = z) && ok e) z hs' with hf | ⟨j, hj, hf, ht, hp, hz⟩
  · -- the map is of no use: the scan
    have hscan := scanFrom_eq (fun e => decide (e.sock = z) && ok e) t (k := t.total.toNat) (j := 0)
      (by unfold Fits at hs'; omega)
    rw [List.drop_zero] at hscan
    rw [hf]
    show ∃ s', (scanFrom _ t t.total.toNat 0).bind _ = _ ∧ _
    rw [hscan]
    unfold linear
    cases (t.dcc.take t.total.toNat).findIdx? fun e => decide (e.sock = z) && ok e with
    | none => exact ⟨t, rfl, rfl, rfl⟩
    | some i =>
      refine ⟨t.mapSet z i, ?_, mapSet_dcc _ _ _, mapSet_total _ _ _⟩
      show Except.ok (((0 + i : ℕ) : ℤ), t.mapSet z ((0 + i : ℕ) : ℤ)) = _
      rw [Nat.zero_add]
  · rw [hf, linear_eq_of_distinct hd' hz hj ht hp]
    exact ⟨t, rfl, rfl, rfl⟩

/-! ### Runs -/

theorem findBy_table {s : Dcc} (ok : DccEntry → Bool) (z : ℤ) :
    Ensures (s.findBy ok z) fun r => r.2.dcc = s.dcc ∧ r.2.total = s.total := by
  unfold findBy
  refine .bind' fun r _ => ?_
  cases r with
  | some j => exact .pure ⟨ensureInit_dcc s, ensureInit_total s⟩
  | none =>
    refine .bind' fun r _ => ?_
    cases r with
    | some j =>
      refine .pure ⟨?_, ?_⟩
      · rw [mapSet_dcc, ensureInit_dcc]
      · rw [mapSet_total, ensureInit_total]
    | none => exact .pure ⟨ensureInit_dcc s, ensureInit_total s⟩

theorem findBy_fits {s : Dcc} (hs : s.Fits) (ok : DccEntry → Bool) (z : ℤ) :
    Ensures ((s.findBy ok z).map Prod.snd) Fits := by
  refine Ensures.map ((findBy_table ok z).mono fun r hr => ?_)
  unfold Fits
  rw [hr.1, hr.2]
  exact hs

theorem step_fits (validIdx : DccTable → Bool) {s : Dcc} (hs : s.Fits) (c : Call) :
    Ensures (step validIdx s c) Fits := by
  cases c with
  | newDcc junk type => exact Ensures.map (newDcc_fits hs junk type)
  | assign i sock => exact assign_fits hs i sock
  | lostdcc n => exact lostdcc_fits hs n
  | changeoverDcc i type => exact changeoverDcc_fits hs i type
  | removedcc n => exact removedcc_fits hs n
  | removeLost => exact removeLostFrom_fits hs _ 0
  | findidx z => exact findBy_fits hs _ z
  | findanyidx z => exact findBy_fits hs _ z

theorem run_fits (validIdx : DccTable → Bool) (maxSocksTd maxSocks : ℤ) (calls : List Call) :
    Ensures (Machine.run (step validIdx) (start maxSocksTd maxSocks) calls) Fits :=
  .run_forall (fun _ c _ hs => step_fits validIdx hs c) (Int.le_refl 0)

/-- After any calls, if no two connections share a socket: both lookups return the index a scan of
the table finds, -1 where there is none, and leave the table as it is. -/
theorem findidx_eq_linear (validIdx : DccTable → Bool) (maxSocksTd maxSocks : ℤ) (calls : List Call)
    (s : Dcc) (hrun : Machine.run (step validIdx) (start maxSocksTd maxSocks) calls = .ok s)
    (hd : s.DistinctLive) (z : ℤ) :
    (∃ s', s.findidx validIdx z = .ok (s.linear (fun e => e.type.any validIdx) z, s') ∧
      s'.dcc = s.dcc ∧ s'.total = s.total) ∧
    (∃ s', s.findanyidx z = .ok (s.linear (fun _ => true) z, s') ∧
      s'.dcc = s.dcc ∧ s'.total = s.total) ∧
    ((∀ e ∈ s.dcc.take s.total.toNat, e.sock ≠ z) →
      s.linear (fun e => e.type.any validIdx) z = -1 ∧ s.linear (fun _ => true) z = -1) := by
  have hs := run_fits validIdx maxSocksTd maxSocks calls s hrun
  refine ⟨findBy_eq hs hd _ z, findBy_eq hs hd _ z, fun hno => ?_⟩
  have hnone : ∀ ok : DccEntry → Bool, s.linear ok z = -1 := by
    intro ok
    unfold linear
    rw [List.findIdx?_eq_none_iff.2 fun e he => ?_]
    rw [decide_eq_false (hno e he), Bool.false_and]
  exact ⟨hnone _, hnone _⟩

/-- Two connections, of which the first goes and the second one moves into its place. -/
def twoConnections : List Call :=
  [.newDcc (fun _ => .zero) (some (.table 0)), .assign 0 5, .newDcc (fun _ => .zero) (some (.table 0)),
    .assign 1 6, .findanyidx 6, .removedcc 0]

theorem findidx_after_removedcc :
    ∃ s, Machine.run (step fun _ => true) (start 0 50) twoConnections = .ok s ∧ s.linear (fun _ => true) 6 = 0 ∧
      (∃ s', s.findidx (fun _ => true) 6 = .ok (s.linear (fun e => e.type.any fun _ => true) 6, s') ∧
        s'.dcc = s.dcc ∧ s'.total = s.total) ∧
      (∃ s', s.findanyidx 6 = .ok (s.linear (fun _ => true) 6, s') ∧
        s'.dcc = s.dcc ∧ s'.total = s.total) ∧
      ((∀ e ∈ s.dcc.take s.total.toNat, e.sock ≠ 6) →
        s.linear (fun e => e.type.any fun _ => true) 6 = -1 ∧ s.linear (fun _ => true) 6 = -1) :=
  ⟨_, rfl, by decide, findidx_eq_linear (fun _ => true) 0 50 twoConnections _ rfl
    (List.pairwise_singleton _ _) 6⟩

end Dcc

end Eggdrop.Net
