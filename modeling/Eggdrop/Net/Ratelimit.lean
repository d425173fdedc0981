import Eggdrop.Base.CString
import Eggdrop.Lib.TokenBucket

/-!
# Ratelimit — how often a host, a nick or a WHOIS gets through

Telnet connections of one address, messages of one nick and WHOIS requests for one nick are limited
by the token buckets of libop, one for each key of a hash table.

* `ratelimitCheck_eq`: the bucket of libop, scaled and of fixed width, is the plain one.
* `permits_le`: in any window of time a key gets through no more often than the bucket holds and is
  refilled, whatever the other keys do.
* `answers_of_gaps`: who always comes again too early gets through as often as the bucket holds, and
  never again; who waits always gets through.
-/

namespace Eggdrop.Limits

open List TokenBucket

/-- `op_ratelimit_t`; the tokens are multiplied by `OP_RATELIMIT_SCALE`. -/
structure Ratelimit where
  lastRefill : ℕ
  rateUsec : ℕ
  tokens : ℕ
  capacity : ℕ
deriving DecidableEq, Repr

/-- `op_ratelimit_init`. -/
def ratelimitInit (capacity ratePerSec nowUsec : ℕ) : Ratelimit where
  lastRefill := nowUsec
  rateUsec := if ratePerSec > 0 then 1000000 / ratePerSec else 2 ^ 64 - 1
  tokens := capacity * 1000 % 2 ^ 32
  capacity := capacity * 1000 % 2 ^ 32

/-- The tokens after the time since the last refill. -/
def Ratelimit.refilled (rl : Ratelimit) (nowUsec : ℕ) : ℕ :=
  let elapsed := if nowUsec > rl.lastRefill then nowUsec - rl.lastRefill else 0
  if rl.rateUsec < 2 ^ 64 - 1 ∧ elapsed > 0 then
    let newTokens := elapsed / rl.rateUsec * 1000 % 2 ^ 64
    let total := (rl.tokens + newTokens) % 2 ^ 64
    if total > rl.capacity then rl.capacity else total % 2 ^ 32
  else rl.tokens

/-- `op_ratelimit_check`. -/
def ratelimitCheck (rl : Ratelimit) (nowUsec : ℕ) : Ratelimit × Bool :=
  let tokens := rl.refilled nowUsec
  if tokens < 1000 then ({ rl with lastRefill := nowUsec, tokens := tokens }, false)
  else ({ rl with lastRefill := nowUsec, tokens := tokens - 1000 }, true)

/-- The limit of a table: how many tokens a bucket holds, and the microseconds for a new one. -/
structure Limit where
  cap : ℕ
  rate : ℕ
  cap_pos : 0 < cap
  cap_lt : cap * 1000 < 2 ^ 32
  rate_ge : 2000 ≤ rate
  rate_lt : rate < 2 ^ 64 - 1

/-- A new bucket; the rate that `op_ratelimit_init` set is overridden. -/
def Limit.fresh (L : Limit) (nowUsec : ℕ) : Ratelimit :=
  { ratelimitInit L.cap 1 nowUsec with rateUsec := L.rate }

/-- A request with its key.  The time is read twice, the first time for a new bucket. -/
structure Call where
  key : CStr
  ts : ℕ
  now : ℕ
deriving DecidableEq, Repr

/-- The buckets, by the keys as the hash table folds them. -/
abbrev Table := CStr → Option Ratelimit

/-- Whether the request is refused. -/
def limited (L : Limit) (ht : Table) (c : Call) : Table × Bool :=
  let rl := (ht (istrFold c.key)).getD (L.fresh c.ts)
  let (rl, permitted) := ratelimitCheck rl c.now
  (Function.update ht (istrFold c.key) (some rl), !permitted)

def dccLimit : Limit := ⟨3, 20000000, by decide, by decide, by decide, by decide⟩

def whoisLimit : Limit := ⟨3, 30000000, by decide, by decide, by decide, by decide⟩

def floodUserLimit : Limit := ⟨5, 3000000, by decide, by decide, by decide, by decide⟩

/-- `dcc_ip_ratelimited`, by the address of a connection. -/
def dccIpRatelimited : Table → Call → Table × Bool := limited dccLimit

/-- `whois_check_ratelimit`, by the nick that is asked for. -/
def whoisCheckRatelimit : Table → Call → Table × Bool := limited whoisLimit

/-- The bucket of `flood_user_check`, by the nick that has spoken. -/
def floodUserLimited : Table → Call → Table × Bool := limited floodUserLimit

/-- The answers to requests, one after the other. -/
def answers (L : Limit) (ht : Table) : List Call → List Bool
  | [] => []
  | c :: cs => (limited L ht c).2 :: answers L (limited L ht c).1 cs

/-- Time does not go back. -/
def Clock (cs : List Call) : Prop :=
  (∀ c ∈ cs, c.ts ≤ c.now ∧ c.now < 2 ^ 64) ∧ cs.Pairwise fun c d => c.now ≤ d.now

instance (cs : List Call) : Decidable (Clock cs) := inferInstanceAs (Decidable (_ ∧ _))

/-- The request is for this key. -/
def Own (key : CStr) (c : Call) : Bool := istrFold c.key == istrFold key

variable {L : Limit}

/-! ### One bucket -/

/-- The bucket of libop for a plain one. -/
def Limit.scaled (L : Limit) (b : Bucket) : Ratelimit where
  lastRefill := b.last
  rateUsec := L.rate
  tokens := b.tokens * 1000
  capacity := L.cap * 1000

theorem fresh_eq (ts : ℕ) : L.fresh ts = L.scaled ⟨ts, L.cap⟩ := by
  simp only [Limit.fresh, Limit.scaled, ratelimitInit, Nat.mod_eq_of_lt L.cap_lt]

theorem refilled_of_le (rl : Ratelimit) {now : ℕ} (h : now ≤ rl.lastRefill) :
    rl.refilled now = rl.tokens := by
  have hno : ¬ now > rl.lastRefill := by omega
  simp only [Ratelimit.refilled, if_neg hno, gt_iff_lt, lt_irrefl, and_false, if_false]

theorem refilled_of_lt (rl : Ratelimit) {now : ℕ} (hlate : rl.lastRefill < now)
    (hrate : rl.rateUsec < 2 ^ 64 - 1) (hcap : rl.capacity < 2 ^ 32)
    (htotal : rl.tokens + (now - rl.lastRefill) / rl.rateUsec * 1000 < 2 ^ 64) :
    rl.refilled now = min rl.capacity (rl.tokens + (now - rl.lastRefill) / rl.rateUsec * 1000) := by
  have helapsed : now - rl.lastRefill > 0 := by omega
  have hnew : (now - rl.lastRefill) / rl.rateUsec * 1000 % 2 ^ 64 =
      (now - rl.lastRefill) / rl.rateUsec * 1000 := Nat.mod_eq_of_lt (by omega)
  simp only [Ratelimit.refilled, gt_iff_lt, if_pos hlate, if_pos (And.intro hrate helapsed), hnew,
    Nat.mod_eq_of_lt htotal]
  by_cases hfull : rl.capacity < rl.tokens + (now - rl.lastRefill) / rl.rateUsec * 1000
  · rw [if_pos hfull, min_eq_left hfull.le]
  · have hle := Nat.le_of_not_lt hfull
    have hmod := Nat.mod_eq_of_lt (hle.trans_lt hcap)
    rw [if_neg hfull, min_eq_right hle]
    exact hmod

theorem refilled_scaled {b : Bucket} {now : ℕ} (hb : b.tokens ≤ L.cap) (hnow : now < 2 ^ 64) :
    (L.scaled b).refilled now = refill L.cap L.rate b now * 1000 := by
  have hcap := L.cap_lt
  by_cases hlate : b.last < now
  · have hquot : (now - b.last) / L.rate * 1000 * 2 ≤ now - b.last := by
      rw [Nat.mul_assoc]
      exact (Nat.mul_le_mul_left _ L.rate_ge).trans (Nat.div_mul_le_self _ _)
    have htokens : b.tokens * 1000 ≤ L.cap * 1000 := Nat.mul_le_mul_right _ hb
    have hnew : (now - b.last) / L.rate * 1000 * 2 < 2 ^ 63 * 2 :=
      hquot.trans_lt ((Nat.sub_le _ _).trans_lt hnow)
    have hold : b.tokens * 1000 < 2 ^ 63 := htokens.trans_lt (hcap.trans (by decide))
    have htotal : b.tokens * 1000 + (now - b.last) / L.rate * 1000 < 2 ^ 64 :=
      Nat.add_lt_add hold (Nat.lt_of_mul_lt_mul_right hnew)
    have heq := refilled_of_lt (L.scaled b) hlate L.rate_lt hcap htotal
    rw [heq, refill]
    simp only [Limit.scaled]
    omega
  · have hzero : now - b.last = 0 := by omega
    rw [refilled_of_le (L.scaled b) (by exact Nat.le_of_not_lt hlate), refill, hzero, Nat.zero_div,
      Nat.add_zero, min_eq_right hb]
    rfl

theorem ratelimitCheck_eq {b : Bucket} {now : ℕ} (hb : b.tokens ≤ L.cap) (hnow : now < 2 ^ 64) :
    ratelimitCheck (L.scaled b) now =
      (L.scaled (check L.cap L.rate b now).2, (check L.cap L.rate b now).1) := by
  rw [ratelimitCheck, refilled_scaled hb hnow]
  by_cases hpos : 0 < refill L.cap L.rate b now
  · rw [if_neg (by omega)]
    simp [Limit.scaled, check, hpos, Nat.sub_mul]
  · rw [if_pos (by omega)]
    simp [Limit.scaled, check, Nat.eq_zero_of_not_pos hpos]

/-! ### One key -/

/-- The answers to the requests for one key, with its bucket if there is one. -/
def keyAnswers (L : Limit) (b : Bucket) (cs : List Call) : List Bool :=
  (checks L.cap L.rate b (cs.map Call.now)).map (!·)

theorem answers_own {key : CStr} (ht : Table) {cs : List Call} (hcs : ∀ c ∈ cs, c.now < 2 ^ 64) :
    (∀ b : Bucket, ht (istrFold key) = some (L.scaled b) → b.tokens ≤ L.cap →
      ((cs.zip (answers L ht cs)).filter fun x => Own key x.1) =
        (cs.filter (Own key)).zip (keyAnswers L b (cs.filter (Own key)))) ∧
    (ht (istrFold key) = none → ∀ c rest, cs.filter (Own key) = c :: rest →
      ((cs.zip (answers L ht cs)).filter fun x => Own key x.1) =
        (cs.filter (Own key)).zip (keyAnswers L ⟨c.ts, L.cap⟩ (cs.filter (Own key)))) := by
  induction cs generalizing ht with
  | nil => exact ⟨fun _ _ _ => rfl, fun _ c rest h => by cases h⟩
  | cons c cs ih =>
    have hnow := hcs c mem_cons_self
    have hrest : ∀ d ∈ cs, d.now < 2 ^ 64 := fun d hd => hcs d (mem_cons_of_mem c hd)
    by_cases hown : Own key c = true
    · have hkey : istrFold c.key = istrFold key := beq_iff_eq.1 hown
      -- with the bucket that the request finds or makes
      have hstep : ∀ b : Bucket, (ht (istrFold key)).getD (L.fresh c.ts) = L.scaled b →
          b.tokens ≤ L.cap →
          (((c :: cs).zip (answers L ht (c :: cs))).filter fun x => Own key x.1) =
            ((c :: cs).filter (Own key)).zip (keyAnswers L b ((c :: cs).filter (Own key))) := by
        intro b hb hle
        have hlim : limited L ht c =
            (Function.update ht (istrFold key) (some (L.scaled (check L.cap L.rate b c.now).2)),
              !(check L.cap L.rate b c.now).1) := by
          simp only [limited, hkey, hb, ratelimitCheck_eq hle hnow]
        have hle' : (check L.cap L.rate b c.now).2.tokens ≤ L.cap :=
          (Nat.sub_le _ _).trans refill_le
        have hnext := (ih (limited L ht c).1 hrest).1 _
          (by simp only [hlim, Function.update_self]) hle'
        simp only [answers, zip_cons_cons, filter_cons, hown, if_true, hnext]
        simp [keyAnswers, checks, hlim]
      constructor
      · exact fun b hb hle => hstep b (by rw [hb, Option.getD_some]) hle
      · intro hnone d rest hd
        have hdc : d = c := by
          simp only [filter_cons, hown, if_true, cons.injEq] at hd
          exact hd.1.symm
        subst hdc
        exact hstep _ (by rw [hnone, Option.getD_none, fresh_eq]) le_rfl
    · have hkey : istrFold c.key ≠ istrFold key := by simpa [Own] using hown
      have hsame : (limited L ht c).1 (istrFold key) = ht (istrFold key) := by
        simp [limited, Function.update_of_ne hkey.symm]
      have hih := ih (limited L ht c).1 hrest
      rw [hsame] at hih
      simpa [answers, filter_cons, hown] using hih

theorem answers_key {key : CStr} {cs rest : List Call} {c : Call} (hclock : Clock cs)
    (hown : cs.filter (Own key) = c :: rest) :
    ((cs.zip (answers L (fun _ => none) cs)).filter fun x => Own key x.1) =
      (cs.filter (Own key)).zip (keyAnswers L ⟨c.ts, L.cap⟩ (cs.filter (Own key))) :=
  (answers_own _ fun d hd => (hclock.1 d hd).2).2 rfl c rest hown

/-! ### What gets through -/

/-- The requests for a key that get through between two times. -/
def permits (L : Limit) (cs : List Call) (key : CStr) (lo hi : ℕ) : ℕ :=
  (cs.zip (answers L (fun _ => none) cs)).countP fun x =>
    Own key x.1 && (decide (lo ≤ x.1.now ∧ x.1.now ≤ hi) && !x.2)

/-- In any window of time a key gets through no more often than its bucket holds and is refilled,
whatever the other keys do. -/
theorem permits_le (L : Limit) (cs : List Call) (hclock : Clock cs) (key : CStr) (lo hi : ℕ) :
    permits L cs key lo hi ≤ L.cap + (hi - lo) / L.rate := by
  have hfilter : permits L cs key lo hi =
      ((cs.zip (answers L (fun _ => none) cs)).filter fun x => Own key x.1).countP fun x =>
        decide (lo ≤ x.1.now ∧ x.1.now ≤ hi) && !x.2 := by
    rw [countP_filter]
    exact countP_congr fun x _ => by simp only [Bool.and_comm]
  rw [hfilter]
  rcases hown : cs.filter (Own key) with _ | ⟨c, rest⟩
  · -- no requests for this key
    have hnil : ((cs.zip (answers L (fun _ => none) cs)).filter fun x => Own key x.1) = [] := by
      refine filter_eq_nil_iff.2 fun x hx => ?_
      exact filter_eq_nil_iff.1 hown x.1 (of_mem_zip hx).1
    rw [hnil]
    exact Nat.zero_le _
  · rw [answers_key hclock hown]
    have hsorted : ((cs.filter (Own key)).map Call.now).Pairwise (· ≤ ·) :=
      pairwise_map.2 (hclock.2.sublist filter_sublist)
    refine le_trans (le_of_eq ?_) (countP_window_le (b := ⟨c.ts, L.cap⟩) lo hi hsorted)
    rw [passed, keyAnswers, zip_map_left, zip_map_right, countP_map, countP_map]
    exact countP_congr fun x _ => by simp

/-- Three tries of one address, one of them written otherwise. -/
theorem permits_three :
    permits dccLimit [⟨['a'], 5, 6⟩, ⟨['b'], 7, 7⟩, ⟨['A'], 8, 20000008⟩] ['a'] 6 20000008 ≤
      3 + (20000008 - 6) / 20000000 :=
  permits_le _ _ (by decide) _ _ _

/-- Who always comes again too early gets through as often as the bucket holds, and never again; who
waits until there is a new token always gets through. -/
theorem answers_of_gaps (L : Limit) (cs : List Call) (hclock : Clock cs) (key : CStr) (c : Call)
    (rest : List Call) (hown : cs.filter (Own key) = c :: rest) :
    (Fast L.rate c.ts (c.now :: rest.map Call.now) →
      (((cs.zip (answers L (fun _ => none) cs)).filter fun x => Own key x.1).map Prod.snd) =
        (range (rest.length + 1)).map fun i => decide (L.cap ≤ i)) ∧
    (Slow L.rate c.now (rest.map Call.now) →
      (((cs.zip (answers L (fun _ => none) cs)).filter fun x => Own key x.1).map Prod.snd) =
        replicate (rest.length + 1) false) := by
  have hsnd : (((cs.zip (answers L (fun _ => none) cs)).filter fun x => Own key x.1).map Prod.snd) =
      (checks L.cap L.rate ⟨c.ts, L.cap⟩ (c.now :: rest.map Call.now)).map (!·) := by
    rw [answers_key hclock hown, hown, map_snd_zip]
    · rfl
    · simp [keyAnswers]
  rw [hsnd]
  constructor
  · intro hfast
    rw [checks_of_fast (b := ⟨c.ts, L.cap⟩) le_rfl hfast, map_map, length_cons, length_map]
    refine map_congr_left fun i _ => ?_
    rw [Function.comp_apply, ← decide_not, decide_eq_decide, Nat.not_lt]
  · intro hslow
    have hfull : 0 < refill L.cap L.rate ⟨c.ts, L.cap⟩ c.now :=
      lt_min L.cap_pos (L.cap_pos.trans_le (Nat.le_add_right _ _))
    have hrate : 0 < L.rate := Nat.lt_of_lt_of_le (by decide) L.rate_ge
    rw [checks, checks_of_slow L.cap_pos hrate hslow]
    simp [check, hfull, replicate_succ]

/-- A nick that is asked for at once four times, with another one between. -/
def hurried : List Call :=
  [⟨['a'], 0, 0⟩, ⟨['b'], 1, 1⟩, ⟨['a'], 2, 2⟩, ⟨['A'], 3, 3⟩, ⟨['a'], 4, 4⟩]

/-- The same, half a minute apart. -/
def patient : List Call := [⟨['a'], 0, 0⟩, ⟨['b'], 1, 1⟩, ⟨['a'], 30000000, 30000000⟩]

theorem answers_hurried_patient :
    ((hurried.zip (answers whoisLimit (fun _ => none) hurried)).filter
        fun x => Own ['a'] x.1).map Prod.snd = [false, false, false, true] ∧
    ((patient.zip (answers whoisLimit (fun _ => none) patient)).filter
        fun x => Own ['a'] x.1).map Prod.snd = [false, false] := by
  have hfast := (answers_of_gaps whoisLimit hurried (by decide) ['a'] ⟨['a'], 0, 0⟩
    [⟨['a'], 2, 2⟩, ⟨['A'], 3, 3⟩, ⟨['a'], 4, 4⟩] (by decide)).1
  have hslow := (answers_of_gaps whoisLimit patient (by decide) ['a'] ⟨['a'], 0, 0⟩
    [⟨['a'], 30000000, 30000000⟩] (by decide)).2
  exact ⟨hfast (by simp [Fast, whoisLimit]), hslow (by simp [Slow, whoisLimit])⟩

end Eggdrop.Limits
