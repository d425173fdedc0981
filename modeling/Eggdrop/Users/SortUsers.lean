import Mathlib.Data.List.Lex
import Mathlib.Data.Prod.Lex
import Eggdrop.Lib.Chain
import Eggdrop.Lib.MergeSort
import Eggdrop.Users.BotSanity
import Eggdrop.Users.Userrec

/-!
# SortUsers — the order of the userfile

Before the userfile is written the list of users is sorted: `sort_compare`, `ms_merge`, `ms_sort`
and `sort_userlist` of userrec.c.  Records are spliced in place, so the memory here is the `next`
pointer of each record.  The comparison looks the flags of two bots up among their entries, and
that lookup follows a missing type where an entry without one stands before the BOTFL entry.

* `before_iff`: the comparison is that of two keys, flag by flag and then by name.
* `msMerge_refines`, `msSort_refines`: splicing does what a merge sort of the list does.
* `sortUserlist_iff`: the sort keeps every record, puts them in order and is stable if and only if
  the flags of any two bots of the list can be looked up.
-/

namespace Eggdrop.Users

/-- `BOT_LEAF`. -/
def botLeaf : BotWord := 0x00000800

/-- `op_strcasecmp`: the first difference, letters compared as small letters. -/
def strcasecmp : CStr → CStr → Int
  | [], [] => 0
  | [], b :: _ => -(toLower b).toNat
  | a :: _, [] => (toLower a).toNat
  | a :: as, b :: bs =>
    if toLower a = toLower b then (if a = '\x00' then 0 else strcasecmp as bs)
    else (toLower a).toNat - (toLower b).toNat

section Code

variable (env : Env)

/-- `bot_flags`: a null pointer reads as zero. -/
def botFlags (u : Userrec) : Except Fault BotWord :=
  (u.getUser env .botfl).bind fun r =>
    match r.1 with
    | .null => .ok 0
    | .botfl w => .ok (w.setWidth 64)
    | _ => .error .badRepr

/-- The pairs of tests of `sort_compare`: only `b` has the flag, only `a` has it. -/
def flagLadder {n : Nat} (a b : BitVec n) : List (BitVec n) → Bool → Bool
  | [], byName => byName
  | f :: fs, byName =>
    if ~~~a &&& b &&& f != 0 then true
    else if a &&& ~~~b &&& f != 0 then false
    else flagLadder a b fs byName

/-- `sort_compare`: true if `a` goes behind `b`. -/
def sortCompare (a b : Userrec) : Except Fault Bool :=
  let byName := decide (0 < strcasecmp a.handle b.handle)
  if (a.flags &&& b.flags).has userBot then do
    let fa ← botFlags env a
    let fb ← botFlags env b
    pure (flagLadder fa fb [botHub, botAlt, botLeaf] byName)
  else pure (flagLadder a.flags b.flags [userBot, userOwner, userMaster, userOp, userHalfop] byName)

/-- Why a function does not return. -/
inductive Stuck where
  | fault (f : Fault)
  | endless
deriving DecidableEq, Repr

/-- The links during `ms_merge`: those of the records and that of the `dummy` on the stack. -/
structure Splice where
  next : Nat → Option Nat
  dummy : Option Nat

/-- `tail->next = p`; no record is the dummy. -/
def Splice.setNext (m : Splice) (tail p : Option Nat) : Splice :=
  match tail with
  | none => { m with dummy := p }
  | some t => { m with next := Function.update m.next t p }

variable (user : Nat → Option Userrec)

/-- The record at an address. -/
def derefUser (a : Nat) : Except Fault Userrec :=
  match user a with
  | some u => .ok u
  | none => .error .badPointer

def compareAt (a b : Nat) : Except Fault Bool := do
  let u ← derefUser user a
  let v ← derefUser user b
  sortCompare env u v

/-- The loop of `ms_merge`, for so many rounds. -/
def mergeLoop : Nat → Option Nat → Option Nat → Option Nat → Splice → Except Stuck Splice
  | _, none, b, tail, m => .ok (m.setNext tail b)
  | _, some a, none, tail, m => .ok (m.setNext tail (some a))
  | 0, some _, some _, _, _ => .error .endless
  | n + 1, some a, some b, tail, m =>
    match compareAt env user a b with
    | .error f => .error (.fault f)
    -- a > b: b goes first
    | .ok true =>
      let m := m.setNext tail (some b)
      mergeLoop n (some a) (m.next b) (some b) m
    | .ok false =>
      let m := m.setNext tail (some a)
      mergeLoop n (m.next a) (some b) (some a) m

/-- `ms_merge`: the head, and the links afterwards. -/
def msMerge (rounds : Nat) (a b : Option Nat) (next : Nat → Option Nat) :
    Except Stuck (Option Nat × (Nat → Option Nat)) :=
  (mergeLoop env user rounds a b none ⟨next, none⟩).map fun m => (m.dummy, m.next)

/-- `p = p->next`, so many times. -/
def advance (next : Nat → Option Nat) : Nat → Nat → Except Stuck Nat
  | 0, p => .ok p
  | k + 1, p =>
    match next p with
    | none => .error (.fault .badPointer)
    | some q => advance next k q

/-- `ms_sort`: the head, and the links afterwards. -/
def msSort (rounds : Nat) (head : Option Nat) (count : Nat) (next : Nat → Option Nat) :
    Except Stuck (Option Nat × (Nat → Option Nat)) :=
  match head with
  | none => .ok (none, next)
  | some h =>
    if count < 2 then .ok (some h, next)
    else
      -- Split: advance half-way, cut the link
      (advance next (count / 2 - 1) h).bind fun p =>
        (msSort rounds (some h) (count / 2) (Function.update next p none)).bind fun r =>
          (msSort rounds (next p) (count - count / 2) r.2).bind fun s =>
            msMerge env user rounds r.1 s.1 s.2
termination_by count

/-- `for (u = userlist; u; u = u->next) n++`. -/
def countUsers (next : Nat → Option Nat) : Nat → Option Nat → Except Stuck Nat
  | _, none => .ok 0
  | 0, some _ => .error .endless
  | rounds + 1, some u => (countUsers next rounds (next u)).map (· + 1)

/-- `sort_userlist`: the list and the links afterwards; no loop runs for more than `rounds` rounds. -/
def sortUserlist (rounds : Nat) (userlist : Option Nat) (next : Nat → Option Nat) :
    Except Stuck (Option Nat × (Nat → Option Nat)) :=
  (countUsers next rounds userlist).bind fun n =>
    if 1 < n then msSort env user rounds userlist n next else .ok (userlist, next)

end Code

/-! ### The comparison -/

section Key

/-- The name as it is compared. -/
def nameKey (s : CStr) : List Nat := (s.takeWhile (· != '\x00')).map fun c => (toLower c).toNat

theorem toLower_toNat_pos {c : Char} (h : c ≠ '\x00') : 0 < (toLower c).toNat := by
  have hA : 'A'.toNat = 65 := rfl
  have hZ : 'Z'.toNat = 90 := rfl
  unfold toLower
  split
  · next hc =>
    rw [char_le_iff, char_le_iff] at hc
    have hlow : (Char.ofNat (c.toNat + 32)).toNat = c.toNat + 32 := toNat_ofNat_of_lt (by omega)
    omega
  · refine Nat.pos_of_ne_zero fun h0 => h ?_
    exact Char.toNat_inj.1 h0

theorem nameKey_nul_cons (s : CStr) : nameKey ('\x00' :: s) = [] := rfl

theorem nameKey_cons {c : Char} (h : c ≠ '\x00') (s : CStr) :
    nameKey (c :: s) = (toLower c).toNat :: nameKey s := by
  have hp : (c != '\x00') = true := bne_iff_ne.2 h
  unfold nameKey
  rw [List.takeWhile_cons, hp]
  rfl

theorem toLower_eq_nul {c : Char} (h : toLower c = toLower '\x00') : c = '\x00' := by
  by_contra hc
  have := toLower_toNat_pos hc
  rw [h] at this
  exact absurd this (by decide)

theorem strcasecmp_pos_iff (a b : CStr) : 0 < strcasecmp a b ↔ nameKey b < nameKey a := by
  induction a generalizing b with
  | nil =>
    have hlt : ¬ nameKey b < nameKey [] := List.not_lt_nil _
    cases b with
    | nil => exact iff_of_false (lt_irrefl 0) hlt
    | cons d b => exact iff_of_false (by rw [strcasecmp]; omega) hlt
  | cons c a ih =>
    by_cases hc : c = '\x00'
    · subst hc
      refine iff_of_false ?_ (List.not_lt_nil _)
      cases b with
      | nil => rw [strcasecmp]; decide
      | cons d b =>
        rw [strcasecmp]
        split
        · rw [if_pos rfl]; exact lt_irrefl 0
        · have : (toLower '\x00').toNat = 0 := by decide
          omega
    · have hpos := toLower_toNat_pos hc
      rw [nameKey_cons hc]
      cases b with
      | nil => exact iff_of_true (by rw [strcasecmp]; omega) (List.nil_lt_cons _ _)
      | cons d b =>
        rw [strcasecmp]
        by_cases hd : d = '\x00'
        · subst hd
          rw [nameKey_nul_cons, if_neg fun h => hc (toLower_eq_nul h)]
          have : (toLower '\x00').toNat = 0 := by decide
          exact iff_of_true (by omega) (List.nil_lt_cons _ _)
        · rw [nameKey_cons hd, List.cons_lt_cons_iff]
          by_cases heq : toLower c = toLower d
          · rw [if_pos heq, if_neg hc, ih, heq]
            simp
          · rw [if_neg heq]
            have hne : (toLower d).toNat ≠ (toLower c).toNat := fun h => heq (Char.toNat_inj.1 h).symm
            constructor
            · intro h
              left
              omega
            · rintro (h | ⟨h, -⟩)
              · omega
              · exact absurd h hne

/-- Where the flags of a ladder are missing. -/
def missing {n : Nat} (w : BitVec n) (fs : List (BitVec n)) : List Bool := fs.map fun f => w &&& f == 0

/-- A flag is one bit. -/
def OneBit {n : Nat} (f : BitVec n) : Prop := ∃ i, f = BitVec.twoPow n i ∧ i < n

theorem and_flag_eq_zero_iff {n i : Nat} (hi : i < n) (w : BitVec n) :
    w &&& BitVec.twoPow n i = 0 ↔ w.getLsbD i = false := by
  rw [BitVec.and_twoPow]
  cases h : w.getLsbD i with
  | false => simp
  | true =>
    refine iff_of_false (fun h0 => ?_) Bool.noConfusion
    have := congrArg (fun v => BitVec.getLsbD v i) h0
    simp [hi] at this

theorem flagLadder_iff {n : Nat} (a b : BitVec n) {fs : List (BitVec n)} (hfs : ∀ f ∈ fs, OneBit f)
    (byName : Bool) :
    flagLadder a b fs byName = true ↔
      missing b fs < missing a fs ∨ missing b fs = missing a fs ∧ byName = true := by
  induction fs with
  | nil => simp [flagLadder, missing]
  | cons f fs ih =>
    obtain ⟨i, rfl, hi⟩ := hfs f List.mem_cons_self
    have hand : ∀ v : BitVec n, (v &&& BitVec.twoPow n i != 0) = v.getLsbD i := by
      intro v
      rw [Bool.eq_iff_iff, bne_iff_ne, ne_eq, and_flag_eq_zero_iff hi, Bool.not_eq_false]
    have hmiss : ∀ v : BitVec n, (v &&& BitVec.twoPow n i == 0) = !v.getLsbD i := by
      intro v
      rw [← hand v, bne, Bool.not_not]
    have ih := ih fun g hg => hfs g (List.mem_cons_of_mem _ hg)
    unfold missing at ih ⊢
    rw [flagLadder, hand, hand, List.map_cons, List.map_cons, hmiss, hmiss, List.cons_lt_cons_iff,
      List.cons_eq_cons]
    rw [BitVec.getLsbD_and, BitVec.getLsbD_and, BitVec.getLsbD_not, BitVec.getLsbD_not]
    cases ha : a.getLsbD i <;> cases hb : b.getLsbD i <;> simp [hi, ih]

/-- What a record is sorted by: bots first, by the flags of their entries, then the others by their
own flags, and among equals the name. -/
def userKey (w : BotWord) (u : Userrec) : List Bool ×ₗ List Nat :=
  toLex (if u.flags.has userBot then false :: missing w [botHub, botAlt, botLeaf]
    else true :: missing u.flags [userOwner, userMaster, userOp, userHalfop], nameKey u.handle)

theorem oneBit_bots : ∀ f ∈ [botHub, botAlt, botLeaf], OneBit f := by
  intro f hf
  rcases List.mem_cons.1 hf with rfl | hf
  · exact ⟨7, by decide, by decide⟩
  rcases List.mem_cons.1 hf with rfl | hf
  · exact ⟨0, by decide, by decide⟩
  · obtain rfl := List.mem_singleton.1 hf
    exact ⟨11, by decide, by decide⟩

theorem oneBit_users : ∀ f ∈ [userBot, userOwner, userMaster, userOp, userHalfop], OneBit f := by
  intro f hf
  rcases List.mem_cons.1 hf with rfl | hf
  · exact ⟨1, by decide, by decide⟩
  rcases List.mem_cons.1 hf with rfl | hf
  · exact ⟨13, by decide, by decide⟩
  rcases List.mem_cons.1 hf with rfl | hf
  · exact ⟨12, by decide, by decide⟩
  rcases List.mem_cons.1 hf with rfl | hf
  · exact ⟨14, by decide, by decide⟩
  · obtain rfl := List.mem_singleton.1 hf
    exact ⟨11, by decide, by decide⟩

theorem has_and_userBot (a b : FlagWord) :
    (a &&& b).has userBot = (a.has userBot && b.has userBot) := by
  have hbit : ∀ w : FlagWord, w.has userBot = w.getLsbD 1 := by
    intro w
    have htwo : userBot = BitVec.twoPow 32 1 := by decide
    rw [FlagWord.has, htwo, Bool.eq_iff_iff, bne_iff_ne, ne_eq, and_flag_eq_zero_iff (by decide),
      Bool.not_eq_false]
  rw [hbit, hbit, hbit, BitVec.getLsbD_and]

end Key

section Order

variable (env : Env)

def IsBot (u : Userrec) : Prop := u.flags.has userBot = true

/-- The flags of the record's BOTFL entry can be looked up. -/
def BotflRead (u : Userrec) : Prop := ∃ w, botFlags env u = .ok w

/-- The key of a record, with no bot flags where they cannot be looked up. -/
def orderKey (u : Userrec) : List Bool ×ₗ List Nat := userKey ((botFlags env u).toOption.getD 0) u

theorem userKey_lt_iff (wa wb : BotWord) (a b : Userrec) (hboth : ¬ (IsBot a ∧ IsBot b)) :
    userKey wb b < userKey wa a ↔
      flagLadder a.flags b.flags [userBot, userOwner, userMaster, userOp, userHalfop]
        (decide (0 < strcasecmp a.handle b.handle)) = true := by
  rw [flagLadder_iff _ _ oneBit_users, decide_eq_true_iff, strcasecmp_pos_iff, userKey, userKey,
    Prod.Lex.toLex_lt_toLex]
  have hmiss : ∀ u : Userrec, missing u.flags [userBot, userOwner, userMaster, userOp, userHalfop] =
      (!u.flags.has userBot) :: missing u.flags [userOwner, userMaster, userOp, userHalfop] := by
    intro u
    rw [FlagWord.has, bne, Bool.not_not]
    rfl
  rw [hmiss, hmiss]
  unfold IsBot at hboth
  cases ha : a.flags.has userBot <;> cases hb : b.flags.has userBot
  · simp
  · simp [List.cons_lt_cons_iff]
  · simp [List.cons_lt_cons_iff]
  · exact absurd ⟨ha, hb⟩ hboth

theorem userKey_lt_iff_of_bots (wa wb : BotWord) {a b : Userrec} (ha : IsBot a) (hb : IsBot b) :
    userKey wb b < userKey wa a ↔
      flagLadder wa wb [botHub, botAlt, botLeaf]
        (decide (0 < strcasecmp a.handle b.handle)) = true := by
  unfold IsBot at ha hb
  rw [flagLadder_iff _ _ oneBit_bots, decide_eq_true_iff, strcasecmp_pos_iff, userKey, userKey,
    Prod.Lex.toLex_lt_toLex, if_pos ha, if_pos hb, List.cons_lt_cons_iff, List.cons_eq_cons]
  simp

theorem sortCompare_eq (a b : Userrec) (h : IsBot a → IsBot b → BotflRead env a ∧ BotflRead env b) :
    sortCompare env a b = .ok (decide (orderKey env b < orderKey env a)) := by
  unfold sortCompare
  rw [has_and_userBot]
  by_cases hboth : IsBot a ∧ IsBot b
  · obtain ⟨⟨wa, hwa⟩, wb, hwb⟩ := h hboth.1 hboth.2
    have hbots := hboth
    unfold IsBot at hbots
    rw [hbots.1, hbots.2]
    change (botFlags env a).bind (fun fa => (botFlags env b).bind fun fb => .ok _) = _
    rw [orderKey, orderKey, hwa, hwb]
    refine congrArg Except.ok ?_
    rw [Bool.eq_iff_iff, decide_eq_true_iff]
    exact (userKey_lt_iff_of_bots wa wb hboth.1 hboth.2).symm
  · have hno : (a.flags.has userBot && b.flags.has userBot) = false := by
      rw [← Bool.not_eq_true, Bool.and_eq_true]
      exact hboth
    rw [hno]
    refine congrArg Except.ok ?_
    rw [Bool.eq_iff_iff, decide_eq_true_iff]
    exact (userKey_lt_iff _ _ a b hboth).symm

theorem read_of_sortCompare {a b : Userrec} {r : Bool} (h : sortCompare env a b = .ok r)
    (ha : IsBot a) (hb : IsBot b) : BotflRead env a ∧ BotflRead env b := by
  unfold IsBot at ha hb
  unfold sortCompare at h
  rw [has_and_userBot, ha, hb] at h
  change (botFlags env a).bind (fun fa => (botFlags env b).bind fun fb => .ok _) = .ok r at h
  cases hfa : botFlags env a with
  | error f =>
    rw [hfa] at h
    cases h
  | ok wa =>
    cases hfb : botFlags env b with
    | error f =>
      rw [hfa, hfb] at h
      cases h
    | ok wb => exact ⟨⟨wa, hfa⟩, wb, hfb⟩

open MergeSort (Before)

theorem before_iff (a b : Userrec) :
    Before (sortCompare env) a b ↔
      (IsBot a → IsBot b → BotflRead env a ∧ BotflRead env b) ∧ orderKey env a ≤ orderKey env b := by
  constructor
  · intro h
    have hread := fun ha hb => read_of_sortCompare env h ha hb
    refine ⟨hread, ?_⟩
    rw [Before, sortCompare_eq env a b hread] at h
    exact not_lt.1 (of_decide_eq_false (Except.ok.inj h))
  · rintro ⟨hread, hle⟩
    rw [Before, sortCompare_eq env a b hread, decide_eq_false (not_lt.2 hle)]

theorem isBot_of_orderKey_le {a b : Userrec} (h : orderKey env a ≤ orderKey env b) (hb : IsBot b) :
    IsBot a := by
  by_contra ha
  unfold IsBot at ha hb
  rw [orderKey, orderKey, userKey, userKey, if_neg ha, if_pos hb] at h
  refine absurd h (not_le.2 ?_)
  rw [Prod.Lex.toLex_lt_toLex]
  left
  rw [List.cons_lt_cons_iff]
  exact .inl (by decide)

theorem orders_sortCompare : MergeSort.Orders (sortCompare env) where
  trans := by
    intro a b c hab hbc
    rw [before_iff] at hab hbc ⊢
    refine ⟨fun ha hc => ?_, hab.2.trans hbc.2⟩
    have hb := isBot_of_orderKey_le env hbc.2 hc
    exact ⟨(hab.1 ha hb).1, (hbc.1 hb hc).2⟩
  asymm := by
    intro a b h
    have hread := fun ha hb => read_of_sortCompare env h ha hb
    rw [before_iff]
    rw [sortCompare_eq env a b hread] at h
    refine ⟨fun hb ha => (hread ha hb).symm, ?_⟩
    exact le_of_lt (of_decide_eq_true (Except.ok.inj h))

end Order

/-! ### Splicing -/

section Splicing

/-- The function on memory ends as the one on lists does, and with `P` where that gives a list. -/
def Follows {α β : Type} (P : α → β → Prop) : Except Fault α → Except Stuck β → Prop
  | .ok a, .ok b => P a b
  | .ok _, .error _ => False
  | .error f, r => r = .error (.fault f)

theorem Follows.bind {α β γ δ : Type} {P : α → β → Prop} {Q : γ → δ → Prop} {x : Except Fault α}
    {y : Except Stuck β} {f : α → Except Fault γ} {g : β → Except Stuck δ} (h : Follows P x y)
    (hfg : ∀ a b, x = .ok a → P a b → Follows Q (f a) (g b)) :
    Follows Q (x.bind f) (y.bind g) := by
  cases x with
  | error e =>
    obtain rfl : y = .error (.fault e) := h
    rfl
  | ok a =>
    cases y with
    | error e => exact h.elim
    | ok b => exact hfg a b rfl h

theorem Follows.map_left {α β γ : Type} {P : α → β → Prop} {Q : γ → β → Prop} {x : Except Fault α}
    {y : Except Stuck β} {f : α → γ} (h : Follows P x y) (hf : ∀ a b, P a b → Q (f a) b) :
    Follows Q (x.map f) y := by
  cases x with
  | error e => exact h
  | ok a =>
    cases y with
    | error e => exact h.elim
    | ok b => exact hf a b h

theorem Follows.map_right {α β δ : Type} {P : α → β → Prop} {Q : α → δ → Prop} {x : Except Fault α}
    {y : Except Stuck β} {g : β → δ} (h : Follows P x y) (hg : ∀ a b, P a b → Q a (g b)) :
    Follows Q x (y.map g) := by
  cases x with
  | error e =>
    obtain rfl : y = .error (.fault e) := h
    rfl
  | ok a =>
    cases y with
    | error e => exact h.elim
    | ok b => exact hg a b h

theorem Follows.mono {α β : Type} {P Q : α → β → Prop} {x : Except Fault α} {y : Except Stuck β}
    (h : Follows P x y) (hPQ : ∀ a b, P a b → Q a b) : Follows Q x y := by
  cases x with
  | error e => exact h
  | ok a =>
    cases y with
    | error e => exact h.elim
    | ok b => exact hPQ a b h

/-- The link of a record, or of the dummy. -/
def Splice.link (m : Splice) : Option Nat → Option Nat
  | none => m.dummy
  | some t => m.next t

@[simp] theorem Splice.link_setNext (m : Splice) (tail p : Option Nat) :
    (m.setNext tail p).link tail = p := by
  cases tail with
  | none => rfl
  | some t => exact Function.update_self t p m.next

theorem Splice.link_setNext_of_ne (m : Splice) {tail t : Option Nat} (p : Option Nat) (h : t ≠ tail) :
    (m.setNext tail p).link t = m.link t := by
  cases tail with
  | none =>
    cases t with
    | none => exact absurd rfl h
    | some t => rfl
  | some s =>
    cases t with
    | none => rfl
    | some t => exact Function.update_of_ne (fun hts => h (congrArg some hts)) p m.next

variable (env : Env) {user : Nat → Option Userrec}

/-- The addresses of a list of records. -/
def addrs (l : List Userrec) : List Nat := l.map Userrec.id

@[simp] theorem addrs_nil : addrs [] = [] := rfl

@[simp] theorem addrs_cons (u : Userrec) (l : List Userrec) : addrs (u :: l) = u.id :: addrs l := rfl

@[simp] theorem addrs_append (l l' : List Userrec) : addrs (l ++ l') = addrs l ++ addrs l' :=
  List.map_append

theorem compareAt_eq {u v : Userrec} (hu : user u.id = some u) (hv : user v.id = some v) :
    compareAt env user u.id v.id = sortCompare env u v := by
  unfold compareAt derefUser
  rw [hu, hv]
  rfl

theorem chain_setNext {m : Splice} {p q tail : Option Nat} {l : List Nat} (h : Chain m.next p l)
    (ht : ∀ t ∈ tail, t ∉ l) : Chain (m.setNext tail q).next p l := by
  cases tail with
  | none => exact h
  | some t => exact h.write (ht t rfl) q

/-- What a merge leaves at the tail it was given: the merged list, and the links of no other cell
touched. -/
def Merged (m : Splice) (tail : Option Nat) (cells : List Nat) (zs : List Userrec) (m' : Splice) : Prop :=
  Chain m'.next (m'.link tail) (addrs zs) ∧
    ∀ t, t ≠ tail → (∀ c ∈ cells, t ≠ some c) → m'.link t = m.link t

theorem Merged.cons {m m' : Splice} {tail : Option Nat} {u : Userrec} {cells cells' : List Nat}
    {zs : List Userrec} (h : Merged (m.setNext tail (some u.id)) (some u.id) cells' zs m')
    (hsub : cells' ⊆ cells) (hu : u.id ∈ cells) (ht : ∀ t ∈ tail, t ∉ cells) :
    Merged m tail cells (u :: zs) m' := by
  have hne : ∀ c ∈ cells, tail ≠ some c := fun c hc htc => ht c htc hc
  constructor
  · have hlink : m'.link tail = some u.id := by
      rw [h.2 tail (hne u.id hu) fun c hc => hne c (hsub hc), Splice.link_setNext]
    exact ⟨hlink, h.1⟩
  · intro t htt htc
    rw [h.2 t (htc u.id hu) fun c hc => htc c (hsub hc), Splice.link_setNext_of_ne m _ htt]

theorem mergeLoop_refines {xs ys : List Userrec} {rounds : Nat} {a b tail : Option Nat} {m : Splice}
    (hx : ∀ u ∈ xs, user u.id = some u) (hy : ∀ u ∈ ys, user u.id = some u)
    (hcx : Chain m.next a (addrs xs)) (hcy : Chain m.next b (addrs ys))
    (hn : (addrs xs ++ addrs ys).Nodup) (ht : ∀ t ∈ tail, t ∉ addrs xs ++ addrs ys)
    (hr : xs.length + ys.length ≤ rounds) :
    Follows (Merged m tail (addrs xs ++ addrs ys)) (MergeSort.merge (sortCompare env) xs ys)
      (mergeLoop env user rounds a b tail m) := by
  induction xs, ys using MergeSort.merge.induct generalizing rounds a b tail m with
  | case1 ys =>
    obtain rfl : a = none := hcx
    rw [MergeSort.merge_nil_left, mergeLoop]
    refine ⟨?_, fun t htt _ => m.link_setNext_of_ne b htt⟩
    rw [Splice.link_setNext]
    exact chain_setNext hcy ht
  | case2 x xs =>
    obtain rfl : b = none := hcy
    obtain ⟨rfl, hcx⟩ := hcx
    rw [MergeSort.merge_nil_right, mergeLoop]
    refine ⟨?_, fun t htt _ => m.link_setNext_of_ne _ htt⟩
    rw [Splice.link_setNext]
    refine chain_setNext ⟨rfl, hcx⟩ fun t htt => ?_
    simpa using ht t htt
  | case3 x xs y ys ih2 ih1 =>
    obtain ⟨rfl, hcx'⟩ := hcx
    obtain ⟨rfl, hcy'⟩ := hcy
    cases rounds with
    | zero => exact absurd hr (by simp)
    | succ n =>
      have htx : ∀ t ∈ tail, t ∉ addrs (x :: xs) := fun t htt hm => ht t htt (List.mem_append_left _ hm)
      have hty : ∀ t ∈ tail, t ∉ addrs (y :: ys) := fun t htt hm => ht t htt (List.mem_append_right _ hm)
      have hcx1 : ∀ q, Chain (m.setNext tail q).next (some x.id) (addrs (x :: xs)) := fun q =>
        chain_setNext ⟨rfl, hcx'⟩ htx
      have hcy1 : ∀ q, Chain (m.setNext tail q).next (some y.id) (addrs (y :: ys)) := fun q =>
        chain_setNext ⟨rfl, hcy'⟩ hty
      rw [MergeSort.merge, mergeLoop, compareAt_eq env (hx x List.mem_cons_self) (hy y List.mem_cons_self)]
      cases sortCompare env x y with
      | error f => rfl
      | ok behind =>
        cases behind with
        | true =>
          -- the records left, and the one just placed, are still different cells
          have hn' : (y.id :: (addrs (x :: xs) ++ addrs ys)).Nodup :=
            List.perm_middle.nodup_iff.1 hn
          have hsub : addrs (x :: xs) ++ addrs ys ⊆ addrs (x :: xs) ++ addrs (y :: ys) :=
            List.append_subset.2 ⟨List.subset_append_left _ _,
              fun c hc => List.mem_append_right _ (List.mem_cons_of_mem _ hc)⟩
          change Follows _ ((MergeSort.merge (sortCompare env) (x :: xs) ys).map (y :: ·))
            (mergeLoop env user n (some x.id) ((m.setNext tail (some y.id)).next y.id) (some y.id)
              (m.setNext tail (some y.id)))
          refine (ih2 hx (fun u hu => hy u (List.mem_cons_of_mem y hu)) (hcx1 _) (hcy1 _).2
            (List.nodup_cons.1 hn').2 ?_ ?_).map_left ?_
          · rintro t ⟨⟩
            exact (List.nodup_cons.1 hn').1
          · rw [List.length_cons] at hr ⊢
            rw [List.length_cons] at hr
            omega
          · intro zs m' h
            exact h.cons hsub (List.mem_append_right _ List.mem_cons_self) ht
        | false =>
          have hn' : (x.id :: (addrs xs ++ addrs (y :: ys))).Nodup := hn
          have hsub : addrs xs ++ addrs (y :: ys) ⊆ addrs (x :: xs) ++ addrs (y :: ys) :=
            List.append_subset.2 ⟨fun c hc => List.mem_append_left _ (List.mem_cons_of_mem _ hc),
              List.subset_append_right _ _⟩
          change Follows _ ((MergeSort.merge (sortCompare env) xs (y :: ys)).map (x :: ·))
            (mergeLoop env user n ((m.setNext tail (some x.id)).next x.id) (some y.id) (some x.id)
              (m.setNext tail (some x.id)))
          refine (ih1 (fun u hu => hx u (List.mem_cons_of_mem x hu)) hy (hcx1 _).2 (hcy1 _)
            (List.nodup_cons.1 hn').2 ?_ ?_).map_left ?_
          · rintro t ⟨⟩
            exact (List.nodup_cons.1 hn').1
          · rw [List.length_cons, List.length_cons] at hr
            rw [List.length_cons]
            omega
          · intro zs m' h
            exact h.cons hsub (List.mem_append_left _ List.mem_cons_self) ht

/-- What a sort leaves: a list from the head on, and the links of no other cell touched. -/
def Rechained (next : Nat → Option Nat) (cells : List Nat) (zs : List Userrec)
    (r : Option Nat × (Nat → Option Nat)) : Prop :=
  Chain r.2 r.1 (addrs zs) ∧ ∀ c, c ∉ cells → r.2 c = next c

theorem msMerge_refines {xs ys : List Userrec} {rounds : Nat} {a b : Option Nat}
    {next : Nat → Option Nat} (hx : ∀ u ∈ xs, user u.id = some u) (hy : ∀ u ∈ ys, user u.id = some u)
    (hcx : Chain next a (addrs xs)) (hcy : Chain next b (addrs ys))
    (hn : (addrs xs ++ addrs ys).Nodup) (hr : xs.length + ys.length ≤ rounds) :
    Follows (Rechained next (addrs xs ++ addrs ys)) (MergeSort.merge (sortCompare env) xs ys)
      (msMerge env user rounds a b next) := by
  refine (mergeLoop_refines (m := ⟨next, none⟩) env hx hy hcx hcy hn ?_ hr).map_right ?_
  · rintro t ⟨⟩
  · rintro zs m' ⟨hchain, hframe⟩
    refine ⟨hchain, fun c hc => hframe (some c) (Option.some_ne_none c) fun d hd hcd => ?_⟩
    obtain rfl := Option.some.inj hcd
    exact hc hd

theorem advance_eq {next : Nat → Option Nat} {l₁ l₂ : List Nat} {h a : Nat}
    (hc : Chain next (some h) (l₁ ++ a :: l₂)) : advance next l₁.length h = .ok a := by
  induction l₁ generalizing h with
  | nil =>
    obtain rfl := Option.some.inj hc.1
    rfl
  | cons b l₁ ih =>
    obtain rfl := Option.some.inj hc.1
    have hc := hc.2
    cases hb : next h with
    | none =>
      rw [hb] at hc
      exact absurd (hc.eq_none_iff.1 rfl) (by simp)
    | some q =>
      rw [hb] at hc
      rw [List.length_cons, advance, hb]
      exact ih hc

theorem msSort_refines {l : List Userrec} {rounds : Nat} {head : Option Nat}
    {next : Nat → Option Nat} (hl : ∀ u ∈ l, user u.id = some u) (hc : Chain next head (addrs l))
    (hn : (addrs l).Nodup) (hr : l.length ≤ rounds) :
    Follows (Rechained next (addrs l)) (MergeSort.sort (sortCompare env) l)
      (msSort env user rounds head l.length next) := by
  induction l using MergeSort.sort.induct generalizing head next with
  | case1 l hshort =>
    rw [MergeSort.sort, if_pos hshort]
    cases head with
    | none =>
      rw [msSort]
      exact ⟨hc, fun c _ => rfl⟩
    | some h =>
      rw [msSort, if_pos hshort]
      exact ⟨hc, fun c _ => rfl⟩
  | case2 l hlong ih1 ih2 =>
    obtain ⟨l₁, c, l₂, hl₁, rfl⟩ : ∃ l₁ c l₂, l₁.length = l.length / 2 - 1 ∧ l = l₁ ++ c :: l₂ := by
      have hlt : l.length / 2 - 1 < l.length := by omega
      exact ⟨l.take (l.length / 2 - 1), l[l.length / 2 - 1], l.drop (l.length / 2 - 1 + 1),
        by rw [List.length_take]; omega, by rw [List.getElem_cons_drop, List.take_append_drop]⟩
    have hlen : (l₁ ++ c :: l₂).length = l₁.length + l₂.length + 1 := by simp; omega
    have hhalf : (l₁ ++ c :: l₂).length / 2 = l₁.length + 1 := by omega
    have hsplit : l₁ ++ c :: l₂ = (l₁ ++ [c]) ++ l₂ := by simp
    have hlast : (l₁ ++ [c]).length = l₁.length + 1 := by simp
    have hrest : (l₁ ++ c :: l₂).length - (l₁.length + 1) = l₂.length := by omega
    have htake : (l₁ ++ c :: l₂).take (l₁.length + 1) = l₁ ++ [c] := by
      rw [hsplit, ← hlast, List.take_left]
    have hdrop : (l₁ ++ c :: l₂).drop (l₁.length + 1) = l₂ := by
      rw [hsplit, ← hlast, List.drop_left]
    rw [hhalf, htake] at ih1
    rw [hhalf, hdrop] at ih2
    rw [MergeSort.sort, if_neg hlong, hhalf, htake, hdrop]
    have hcells : addrs (l₁ ++ c :: l₂) = addrs l₁ ++ c.id :: addrs l₂ := by simp
    rw [hcells] at hc hn
    obtain ⟨hc₁, hc₂⟩ := hc.cut hn
    have hn₁ : (addrs (l₁ ++ [c])).Nodup ∧ (addrs l₂).Nodup ∧
        ∀ a ∈ addrs (l₁ ++ [c]), a ∉ addrs l₂ := by
      have hn' : (addrs (l₁ ++ [c]) ++ addrs l₂).Nodup := by simpa using hn
      rw [List.nodup_append] at hn'
      exact ⟨hn'.1, hn'.2.1, fun a ha hb => hn'.2.2 a ha a hb rfl⟩
    have hu₁ : ∀ u ∈ l₁ ++ [c], user u.id = some u := fun u hu =>
      hl u (by rw [hsplit]; exact List.mem_append_left _ hu)
    have hu₂ : ∀ u ∈ l₂, user u.id = some u := fun u hu =>
      hl u (by rw [hsplit]; exact List.mem_append_right _ hu)
    cases head with
    | none => exact absurd (hc.eq_none_iff.1 rfl) (by simp)
    | some h =>
      have hadv : advance next ((l₁ ++ c :: l₂).length / 2 - 1) h = .ok c.id := by
        rw [hhalf, Nat.add_sub_cancel]
        have := advance_eq hc
        rwa [addrs, List.length_map] at this
      rw [msSort, if_neg hlong, hadv, hhalf, hrest]
      change Follows _ _ ((msSort env user rounds (some h) (l₁.length + 1)
        (Function.update next c.id none)).bind fun r => (msSort env user rounds (next c.id) l₂.length
          r.2).bind fun s => msMerge env user rounds r.1 s.1 s.2)
      rw [← hlast]
      refine (ih1 hu₁ (by simpa using hc₁) hn₁.1 (by omega)).bind ?_
      rintro xs r hsort₁ ⟨hxs, hframe₁⟩
      have hcr : Chain r.2 (next c.id) (addrs l₂) :=
        hc₂.congr fun a ha => hframe₁ a fun hm => hn₁.2.2 a hm ha
      refine (ih2 hu₂ hcr hn₁.2.1 (by omega)).bind ?_
      rintro ys s hsort₂ ⟨hys, hframe₂⟩
      have hpx := MergeSort.sort_perm hsort₁
      have hpy := MergeSort.sort_perm hsort₂
      have hax : (addrs xs).Perm (addrs (l₁ ++ [c])) := hpx.map Userrec.id
      have hay : (addrs ys).Perm (addrs l₂) := hpy.map Userrec.id
      have hperm : (addrs xs ++ addrs ys).Perm (addrs l₁ ++ c.id :: addrs l₂) := by
        refine (hax.append hay).trans ?_
        simp
      have hxs' : Chain s.2 r.1 (addrs xs) :=
        hxs.congr fun a ha => hframe₂ a fun hm => hn₁.2.2 a (hax.subset ha) hm
      have hlen' : xs.length + ys.length ≤ rounds := by
        rw [hpx.length_eq, hpy.length_eq]
        omega
      refine (msMerge_refines env (fun u hu => hu₁ u (hpx.subset hu))
        (fun u hu => hu₂ u (hpy.subset hu)) hxs' hys (hperm.nodup_iff.2 hn) hlen').mono ?_
      rintro zs t ⟨hzs, hframe₃⟩
      refine ⟨hzs, fun a ha => ?_⟩
      rw [hcells] at ha
      have ha' : a ∉ addrs (l₁ ++ [c]) ∧ a ∉ addrs l₂ ∧ a ≠ c.id := by
        refine ⟨fun hm => ha ?_, fun hm => ha ?_, ?_⟩
        · exact hperm.subset (List.mem_append_left _ (hax.symm.subset hm))
        · exact List.mem_append_right _ (List.mem_cons_of_mem _ hm)
        · rintro rfl
          exact ha (List.mem_append_right _ List.mem_cons_self)
      rw [hframe₃ a fun hm => ha (hperm.subset hm), hframe₂ a ha'.2.1, hframe₁ a ha'.1,
        Function.update_of_ne ha'.2.2]

theorem countUsers_eq {next : Nat → Option Nat} {p : Option Nat} {cells : List Nat}
    (h : Chain next p cells) {rounds : Nat} (hr : cells.length ≤ rounds) :
    countUsers next rounds p = .ok cells.length := by
  induction cells generalizing p rounds with
  | nil =>
    obtain rfl : p = none := h
    rw [countUsers]
    rfl
  | cons c cells ih =>
    obtain ⟨rfl, h⟩ := h
    cases rounds with
    | zero => exact absurd hr (by simp)
    | succ n =>
      rw [countUsers, ih h (Nat.le_of_succ_le_succ hr)]
      rfl

end Splicing

/-! ### What the sort does to a list of users -/

section Main

open MergeSort (Before)

variable (env : Env)

/-- What an entry of bot flags holds. -/
def FitsBotfl : Value → Prop
  | .null => True
  | .botfl _ => True
  | _ => False

/-- No entry without a type stands before the BOTFL entry, and that holds bot flags. -/
def BotflFound (u : Userrec) : Prop :=
  Clear (entryOps env.hooks u.flags) .botfl u.entries ∧
    ∀ e ∈ u.entries.find? (Entry.isFor (entryOps env.hooks u.flags) .botfl), FitsBotfl e.u

theorem botflRead_iff (u : Userrec) : BotflRead env u ↔ BotflFound env u := by
  unfold BotflRead BotflFound botFlags Userrec.getUser Users.getUser
  by_cases hclear : Clear (entryOps env.hooks u.flags) .botfl u.entries
  · rw [findUserEntry_of_clear _ _ hclear, and_iff_right hclear]
    cases u.entries.find? (Entry.isFor (entryOps env.hooks u.flags) .botfl) with
    | none =>
      refine iff_of_true ⟨0, rfl⟩ ?_
      intro e he
      cases he
    | some e =>
      simp only [Option.mem_def, Option.some.injEq, forall_eq']
      change (∃ w, (match e.u with
        | .null => Except.ok 0
        | .botfl w => .ok (w.setWidth 64)
        | _ => .error Fault.badRepr) = .ok w) ↔ FitsBotfl e.u
      cases e.u with
      | null => exact iff_of_true ⟨_, rfl⟩ trivial
      | botfl w => exact iff_of_true ⟨_, rfl⟩ trivial
      | _ =>
        refine iff_of_false ?_ id
        rintro ⟨w, hw⟩
        cases hw
  · rw [findUserEntry_of_not_clear _ _ hclear]
    refine iff_of_false ?_ fun h => hclear h.1
    rintro ⟨w, hw⟩
    cases hw

/-- Memory holds the records of `l`, linked in this order from `p` on. -/
def Holds (user : Nat → Option Userrec) (next : Nat → Option Nat) (p : Option Nat)
    (l : List Userrec) : Prop :=
  Chain next p (addrs l) ∧ ∀ u ∈ l, user u.id = some u

/-- The records that compare equal to `u`. -/
def tied (u v : Userrec) : Bool :=
  decide (sortCompare env u v = .ok false) && decide (sortCompare env v u = .ok false)

/-- The sort returns, with a list of the same records, in order, that keeps equal ones as they
were. -/
def SortsUsers (user : Nat → Option Userrec) (rounds : Nat) (p : Option Nat)
    (next : Nat → Option Nat) (l : List Userrec) : Prop :=
  ∃ p' next' l', sortUserlist env user rounds p next = .ok (p', next') ∧ Holds user next' p' l' ∧
    l'.Perm l ∧ l'.Pairwise (Before (sortCompare env)) ∧
      ∀ u ∈ l, l'.filter (tied env u) = l.filter (tied env u)

/-- `sort_compare` is a total preorder on the records of a list. -/
structure TotalPreorder (l : List Userrec) : Prop where
  total : ∀ u ∈ l, ∀ v ∈ l, Before (sortCompare env) u v ∨ Before (sortCompare env) v u
  trans : ∀ u ∈ l, ∀ v ∈ l, ∀ w ∈ l,
    Before (sortCompare env) u v → Before (sortCompare env) v w → Before (sortCompare env) u w

/-- The flags of any two bots of the list can be looked up. -/
def BotsFound (l : List Userrec) : Prop :=
  l.Pairwise fun u v => IsBot u → IsBot v → BotflFound env u ∧ BotflFound env v

theorem ties_tied (u : Userrec) : MergeSort.Ties (sortCompare env) (tied env u) := by
  intro a b ha hb
  unfold tied at ha hb
  rw [Bool.and_eq_true, decide_eq_true_iff, decide_eq_true_iff] at ha hb
  exact (orders_sortCompare env).trans ha.2 hb.1

variable {user : Nat → Option Userrec} {next : Nat → Option Nat} {p : Option Nat}
  {l : List Userrec} {rounds : Nat}

theorem sortUserlist_refines (hl : Holds user next p l) (hn : (addrs l).Nodup)
    (hr : l.length ≤ rounds) :
    Follows (Rechained next (addrs l)) (MergeSort.sort (sortCompare env) l)
      (sortUserlist env user rounds p next) := by
  have hlen : (addrs l).length = l.length := List.length_map _
  have hcount := countUsers_eq hl.1 (hlen ▸ hr)
  rw [sortUserlist, hcount, hlen]
  change Follows _ _ (if 1 < l.length then msSort env user rounds p l.length next else .ok (p, next))
  split
  · exact msSort_refines env hl.2 hl.1 hn hr
  · rename_i hshort
    rw [MergeSort.sort, if_pos (by omega)]
    exact ⟨hl.1, fun c _ => rfl⟩

theorem botsFound_of_sorts (h : SortsUsers env user rounds p next l) : BotsFound env l := by
  obtain ⟨-, -, l', -, -, hperm, hsorted, -⟩ := h
  refine hperm.pairwise (hsorted.imp fun {u v} h hu hv => ?_) fun {u v} h hv hu => (h hu hv).symm
  rw [← botflRead_iff, ← botflRead_iff]
  exact ((before_iff env u v).1 h).1 hu hv

theorem sorts_of_botsFound (hl : Holds user next p l) (hn : (addrs l).Nodup)
    (hr : l.length ≤ rounds) (h : BotsFound env l) : SortsUsers env user rounds p next l := by
  have hcomp : l.Pairwise (MergeSort.Comparable (sortCompare env)) := by
    refine h.imp fun {u v} h => ?_
    rw [← botflRead_iff, ← botflRead_iff] at h
    exact ⟨⟨_, sortCompare_eq env u v h⟩, _, sortCompare_eq env v u fun hv hu => (h hu hv).symm⟩
  obtain ⟨l', hsort⟩ := MergeSort.sort_isOk hcomp
  have hrefines := sortUserlist_refines env hl hn hr
  rw [hsort] at hrefines
  have hperm := MergeSort.sort_perm hsort
  cases hrun : sortUserlist env user rounds p next with
  | error e =>
    rw [hrun] at hrefines
    exact hrefines.elim
  | ok r =>
    rw [hrun] at hrefines
    exact ⟨r.1, r.2, l', hrun, ⟨hrefines.1, fun u hu => hl.2 u (hperm.subset hu)⟩, hperm,
      MergeSort.sort_pairwise (orders_sortCompare env) hsort,
      fun u _ => MergeSort.filter_sort (orders_sortCompare env) (ties_tied env u) hsort⟩

theorem totalPreorder_iff : TotalPreorder env l ↔ ∀ u ∈ l, IsBot u → BotflFound env u := by
  constructor
  · intro h u hu hbot
    have hself : Before (sortCompare env) u u := (h.total u hu u hu).elim id id
    rw [← botflRead_iff]
    exact (((before_iff env u u).1 hself).1 hbot hbot).1
  · intro h
    have hread : ∀ u ∈ l, ∀ v ∈ l, IsBot u → IsBot v → BotflRead env u ∧ BotflRead env v := by
      intro u hu v hv hbu hbv
      rw [botflRead_iff, botflRead_iff]
      exact ⟨h u hu hbu, h v hv hbv⟩
    constructor
    · intro u hu v hv
      rw [before_iff, before_iff]
      exact (le_total (orderKey env u) (orderKey env v)).imp (⟨hread u hu v hv, ·⟩)
        (⟨hread v hv u hu, ·⟩)
    · intro u _ v _ w _ huv hvw
      exact (orders_sortCompare env).trans huv hvw

theorem sortUserlist_iff (hl : Holds user next p l) (hn : (addrs l).Nodup) (hr : l.length ≤ rounds) :
    (SortsUsers env user rounds p next l ↔ BotsFound env l) ∧
      (TotalPreorder env l ↔ ∀ u ∈ l, IsBot u → BotflFound env u) :=
  ⟨⟨botsFound_of_sorts env, sorts_of_botsFound env hl hn hr⟩, totalPreorder_iff env⟩

end Main

/-! ### Two lists -/

section Runs

def sortEnv : Env := ⟨plainHooks, [], fun _ _ => 0, 0, 0⟩

/-- A record at an address that is a bot or not, with these entries. -/
def sortRec (id : Nat) (handle : String) (flags : FlagWord) (entries : List (Entry EntryType Value)) :
    Userrec :=
  ⟨id, handle.toList, flags, 0, [], entries, false⟩

def alice : Userrec := sortRec 1 "alice" 0 []
def hubBot : Userrec := sortRec 2 "hub" userBot [.typed .botfl (.botfl 0x80)]
/-- A bot with a field of a module that is not loaded, before its flags. -/
def strangeBot : Userrec := sortRec 3 "leaf" userBot
  [.named "FSTAT".toList (.list ["0".toList]), .typed .botfl (.botfl 0x800)]

/-- The records in memory, and the links of a list of two of them. -/
def twoUsers (a b : Userrec) (i : Nat) : Option Userrec :=
  if i = a.id then some a else if i = b.id then some b else none

def twoLinks (a b : Userrec) (i : Nat) : Option Nat := if i = a.id then some b.id else none

theorem holds_two {a b : Userrec} (h : a.id ≠ b.id) :
    Holds (twoUsers a b) (twoLinks a b) (some a.id) [a, b] := by
  refine ⟨⟨rfl, if_pos rfl, if_neg (Ne.symm h)⟩, fun u hu => ?_⟩
  rcases List.mem_cons.1 hu with rfl | hu
  · exact if_pos rfl
  · obtain rfl := List.mem_singleton.1 hu
    exact (if_neg (Ne.symm h)).trans (if_pos rfl)

theorem sorts_alice_hub :
    (SortsUsers sortEnv (twoUsers alice hubBot) 2 (some 1) (twoLinks alice hubBot) [alice, hubBot] ↔
      BotsFound sortEnv [alice, hubBot]) ∧
    (TotalPreorder sortEnv [alice, hubBot] ↔
      ∀ u ∈ [alice, hubBot], IsBot u → BotflFound sortEnv u) :=
  sortUserlist_iff sortEnv (holds_two (by decide)) (by decide) (by decide)

/-- Two bots, one of them with the unknown field: the sort follows a missing type. -/
theorem not_sorts_strange :
    ¬ SortsUsers sortEnv (twoUsers hubBot strangeBot) 2 (some 2) (twoLinks hubBot strangeBot)
      [hubBot, strangeBot] := by
  intro h
  have hbots := List.pairwise_pair.1 (botsFound_of_sorts sortEnv h)
  exact not_clear_named_cons _ _ _ _ _ (hbots rfl rfl).2.1

end Runs

end Eggdrop.Users
