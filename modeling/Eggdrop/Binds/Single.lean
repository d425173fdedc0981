import Eggdrop.Binds.Dispatch

/-!
# Single — tables that are not stackable

A mask has one procedure there.  The masks are moved to the front when they are used, so what an
event does may not depend on their order.

* `scanMasks_picked`: the loop finds the command that is sure, or counts those that are wanted.
* `Inv.answer_layout`: the order of the masks does not matter to the answer.
* `Inv.checkTclBind_single`: `check_tcl_bind` gives the answer, and the table follows the list still.
-/

namespace Eggdrop.Binds

open List Users

variable {m : Matchers} {k : Kind} {e : Trigger} {tl : BindList} {bound : List Bound}
  {cmd proc flags : CStr} {a : ℕ} {tm : BindMask} {pre post : List BindMask} {c c' : Scan}

/-- No other match is looked for after it. -/
def sure (k : Kind) (e : Trigger) (b : Bound) : Bool :=
  k.matchType ≠ .matchPartial || strcaseEq e.text b.mask

/-- What the loop finds: the command that is sure, or the last one, and how many there are. -/
structure Picked (k : Kind) (e : Trigger) (wanted : List Bound) (c c' : Scan) : Prop where
  out : c'.out = c.out
  called : c'.called = c.called
  result : c'.result = c.result
  found : ∀ b, wanted.find? (sure k e) = some b → c'.cnt = 1 ∧ c'.htc = some b.proc
  other : wanted.find? (sure k e) = none →
    c'.cnt = c.cnt + wanted.length ∧ c'.htc = (wanted.getLast?.map Bound.proc).or c.htc

theorem scanCmds_single (hns : k.bindStackable = false) (mi : ℕ) (mask : CStr) (tcs : List Cmd)
    (c : Scan) : scanCmds k e mi mask tcs c =
      ((ready e tcs).head?.map fun proc =>
        (c.count mi).pick proc (k.matchType ≠ .matchPartial || strcaseEq e.text mask)).getD c := by
  induction tcs with
  | nil => rfl
  | cons tc tcs ih =>
    rw [scanCmds]
    by_cases hskip : (tc.deleted || !checkBindFlags e.opts tc.flags e.atr) = true
    · rw [if_pos hskip, ready_cons_of_skip hskip, ih]
    · rw [if_neg hskip, ready_cons_of_run hskip, if_pos (by rw [hns]; rfl)]
      rfl

theorem scanExact_single (hns : k.bindStackable = false) (tcs : List Cmd) (c : Scan) :
    scanExact k e tcs c =
      ((ready e tcs).head?.map fun proc => { c with cnt := 1, htc := some proc }).getD c := by
  induction tcs with
  | nil => rfl
  | cons tc tcs ih =>
    rw [scanExact]
    by_cases hskip : (tc.deleted || !checkBindFlags e.opts tc.flags e.atr) = true
    · rw [if_pos hskip, ready_cons_of_skip hskip, ih]
    · rw [if_neg hskip, ready_cons_of_run hskip, if_pos (by rw [hns]; rfl)]
      rfl

theorem scanMasks_of_finish (mi : ℕ) (tms : List BindMask) (h : c.finish = true) :
    scanMasks m k e mi tms c = c := by
  cases tms with
  | nil => rfl
  | cons tm tms => rw [scanMasks, if_pos (by rw [h, Bool.true_or])]

theorem scanMasks_picked (hns : k.bindStackable = false) {tms : List BindMask}
    (hone : ∀ tm ∈ tms, tm.bound.length ≤ 1) (mi : ℕ) (hc : c.out = false) (hf : c.finish = false) :
    Picked k e ((layout tms).filter (wants m k e)) c (scanMasks m k e mi tms c) := by
  induction tms generalizing c mi with
  | nil => exact ⟨rfl, rfl, rfl, nofun, fun _ => ⟨rfl, (Option.none_or).symm⟩⟩
  | cons tm tms ih =>
    obtain ⟨htm, htms⟩ := forall_mem_cons.1 hone
    have hready := filter_wants_bound (m := m) (k := k) (e := e) tm
    have hlen : (tm.bound.filter (wants m k e)).length ≤ 1 := Nat.le_trans (length_filter_le _ _) htm
    rw [scanMasks, if_neg (by rw [hc, hf]; exact Bool.false_ne_true), filter_wants_cons]
    by_cases hmatch : checkBindMatch m k e.text tm.mask = true
    · rw [if_pos hmatch] at hready
      rw [if_neg (by rw [hmatch]; exact Bool.false_ne_true), scanCmds_single hns, ← hready]
      rcases hw : tm.bound.filter (wants m k e) with _ | ⟨b, _ | ⟨b', l⟩⟩
      · exact ih htms _ hc hf
      · have hbm : b.mask = tm.mask := mem_bound (mem_of_mem_filter (hw ▸ mem_singleton_self b))
        have hsure : sure k e b =
            (decide (k.matchType ≠ .matchPartial) || strcaseEq e.text tm.mask) := by
          rw [sure, hbm]
        rw [singleton_append, map_cons, head?_cons, Option.map_some, Option.getD_some, ← hsure]
        by_cases hb : sure k e b = true
        · rw [hb, scanMasks_of_finish _ _ (Bool.or_true _)]
          refine ⟨rfl, rfl, rfl, fun b' hb' => ?_, fun hnone => ?_⟩
          · rw [find?_cons_of_pos hb] at hb'
            obtain rfl := Option.some.inj hb'
            exact ⟨rfl, rfl⟩
          · rw [find?_cons_of_pos hb] at hnone
            cases hnone
        · have hb' : sure k e b = false := Bool.eq_false_iff.2 hb
          have hgo : ((c.count mi).pick b.proc (sure k e b)).finish = false := by
            rw [hb']
            exact (Bool.or_false _).trans hf
          obtain ⟨hout, hcalled, hresult, hfound, hother⟩ :=
            ih htms (mi + 1) (c := (c.count mi).pick b.proc (sure k e b)) hc hgo
          refine ⟨hout, hcalled, hresult, fun d hd => ?_, fun hnone => ?_⟩
          · rw [find?_cons_of_neg hb] at hd
            exact hfound d hd
          · rw [find?_cons_of_neg hb] at hnone
            obtain ⟨hcnt, hhtc⟩ := hother hnone
            refine ⟨?_, ?_⟩
            · have hstep : ((c.count mi).pick b.proc (sure k e b)).cnt = c.cnt + 1 := by
                rw [hb']
                rfl
              rw [hcnt, hstep, length_cons]
              omega
            · rw [hhtc, getLast?_cons]
              cases ((layout tms).filter (wants m k e)).getLast? <;> rfl
      · rw [hw, length_cons, length_cons] at hlen
        omega
    · rw [if_neg hmatch, map_eq_nil_iff] at hready
      rw [hready, nil_append, if_pos (by rw [Bool.eq_false_iff.2 hmatch]; rfl)]
      exact ih htms _ hc hf

/-! ### The order does not matter -/

/-- `answer`, by what is asked of the binds: whether they have the very text, and the procedure. -/
def answerOf (l : List (Bool × CStr)) : Answer :=
  match l.find? (·.1) with
  | some x => .run x.2
  | none => only (l.map Prod.snd)

theorem answer_eq_answerOf (e : Trigger) (wanted : List Bound) :
    answer e wanted = answerOf (wanted.map fun b => (strcaseEq e.text b.mask, b.proc)) := by
  rw [answer, answerOf, find?_map, map_map]
  simp only [Function.comp_def]
  cases wanted.find? fun b => strcaseEq e.text b.mask <;> rfl

theorem only_perm {ps qs : List CStr} (h : ps.Perm qs) : only ps = only qs := by
  have hlen := h.length_eq
  rcases qs with _ | ⟨q, _ | ⟨q', t⟩⟩
  · rw [h.eq_nil]
  · rw [perm_singleton.1 h]
  · rcases ps with _ | ⟨p, _ | ⟨p', t'⟩⟩
    · cases hlen
    · cases hlen
    · rfl

theorem answerOf_perm {l l' : List (Bool × CStr)} (h : l.Perm l')
    (hone : (l'.filter (·.1)).length ≤ 1) : answerOf l = answerOf l' := by
  have hfind : l.find? (·.1) = l'.find? (·.1) := by
    rw [← head?_filter, ← head?_filter,
      SwapRemove.eq_of_perm_of_length_le_one (h.filter _) hone]
  rw [answerOf, answerOf, hfind, only_perm (h.map Prod.snd)]

theorem answer_singleton (e : Trigger) (b : Bound) : answer e [b] = .run b.proc := by
  rw [answer, find?_singleton]
  split
  · next d hd =>
    split at hd
    · rw [← Option.some.inj hd]
    · cases hd
  · rfl

theorem Alike.strcaseEq {a b : CStr} (h : Alike m k a b) (hmt : k.matchType = .matchPartial)
    (text : CStr) : Eggdrop.strcaseEq text a = Eggdrop.strcaseEq text b := by
  have hpart : ∀ s t : CStr, checkBindMatch m k s t = Eggdrop.strcaseEq s (t.take s.length) := by
    intro s t
    rw [checkBindMatch, hmt]
  have hab := h.2 a
  have hba := h.2 b
  rw [hpart, hpart, take_length, strcaseEq_refl] at hab
  rw [hpart, hpart, take_length, strcaseEq_refl] at hba
  have hlen : ∀ s t : CStr, Eggdrop.strcaseEq s t = true → s.length = t.length := by
    intro s t hst
    have := congrArg length (strcaseEq_iff.1 hst)
    rwa [length_map, length_map] at this
  have h₁ := hlen _ _ hab.symm
  have h₂ := hlen _ _ hba
  rw [length_take] at h₁ h₂
  have hba' : Eggdrop.strcaseEq b a = true := by
    rwa [take_of_length_le (by omega)] at hba
  rw [strcaseEq_comm text a, strcaseEq_comm text b]
  exact (strcaseEq_congr_left hba' text).symm

namespace Inv

variable (h : Inv m k tl bound)

include h

theorem perm_layout : ((layout tl.masks).map Bound.key).Perm (bound.map Bound.key) := by
  have hcount : ∀ (l : List Bound) (x : CStr × CStr × FlagRecord), (l.map Bound.key).count x =
      ((l.filter fun b => decide (istrFold b.mask = x.1)).map Bound.key).count x := by
    intro l x
    induction l with
    | nil => rfl
    | cons b l ih =>
      by_cases hb : istrFold b.mask = x.1
      · rw [filter_cons_of_pos (by simpa using hb), map_cons, map_cons, count_cons, count_cons, ih]
      · have hne : ¬ (b.key == x) = true := by
          rw [beq_iff_eq]
          exact fun heq => hb (congrArg Prod.fst heq)
        rw [filter_cons_of_neg (by simpa using hb), map_cons, count_cons, if_neg hne, ih, add_zero]
  rw [perm_iff_count]
  intro x
  rw [hcount (layout tl.masks), hcount bound, h.same _ (.fold x.1)]

theorem ask_mask {q : CStr → Bool} (hq : ∀ a b, Alike m k a b → q a = q b) {b : Bound}
    (hb : b ∈ layout tl.masks ∨ b ∈ bound) :
    q b.mask = tl.masks.any fun tm => decide (istrFold tm.mask = istrFold b.mask) && q tm.mask := by
  obtain ⟨tm, htm, hal⟩ : ∃ tm ∈ tl.masks, Alike m k tm.mask b.mask := by
    rcases hb with hb | hb
    · obtain ⟨tm, htm, hbt⟩ := mem_layout.1 hb
      exact ⟨tm, htm, mem_bound hbt ▸ .refl _⟩
    · exact h.alike b hb
  rw [Bool.eq_iff_iff, any_eq_true]
  refine ⟨fun hqb => ⟨tm, htm, ?_⟩, ?_⟩
  · rw [hq _ _ hal, hqb, decide_eq_true hal.1]
    rfl
  · rintro ⟨x, hx, hxq⟩
    obtain ⟨hfold, hqx⟩ := Bool.and_eq_true_iff.1 hxq
    obtain rfl : x = tm := inj_on_of_nodup_map h.shape.folds hx htm
      ((of_decide_eq_true hfold).trans hal.1.symm)
    rw [← hq _ _ hal, hqx]

theorem perm_wanted : (((layout tl.masks).filter (wants m k e)).map Bound.key).Perm
    ((bound.filter (wants m k e)).map Bound.key) := by
  have hkey : ∀ l : List Bound, (∀ b ∈ l, b ∈ layout tl.masks ∨ b ∈ bound) →
      (l.filter (wants m k e)).map Bound.key = (l.map Bound.key).filter fun x =>
        (tl.masks.any fun tm => decide (istrFold tm.mask = x.1) &&
          checkBindMatch m k e.text tm.mask) && checkBindFlags e.opts x.2.2 e.atr := by
    intro l hl
    rw [filter_map]
    refine congrArg (map Bound.key) (filter_congr fun b hb => ?_)
    rw [wants, h.ask_mask (fun a b hal => hal.2 e.text) (hl b hb)]
    rfl
  rw [hkey _ fun _ hb => .inl hb, hkey _ fun _ hb => .inr hb]
  exact h.perm_layout.filter _

theorem length_bound_le_one (hht : k.htStackable = false) :
    ∀ tm ∈ tl.masks, tm.bound.length ≤ 1 := by
  intro tm htm
  have htable := (h.shape.table (istrFold tm.mask) tm.addr).2 ⟨tm, htm, rfl, rfl⟩
  obtain ⟨pre, x, post, he⟩ := h.shape.entry htable
  have hx : x ∈ tl.masks := by
    rw [he.masks]
    exact mem_append_right _ mem_cons_self
  obtain rfl : x = tm := inj_on_of_nodup_map h.shape.folds hx htm he.fold
  have hlen := congrArg length (h.filter_isFor he)
  rw [length_map, length_map] at hlen
  rw [← hlen]
  exact ListEdit.length_filter_key_le_one (h.single hht) (istrFold x.mask)

theorem answer_layout (hht : k.htStackable = false) (hmt : k.matchType = .matchPartial ∨
    ((layout tl.masks).filter (wants m k e)).length ≤ 1) :
    answer e ((layout tl.masks).filter (wants m k e)) = answer e (bound.filter (wants m k e)) := by
  have hperm := h.perm_wanted (e := e)
  rcases hmt with hmt | hone
  · -- what is asked of a bind depends on its key
    have hask : ∀ l : List Bound, (∀ b ∈ l, b ∈ layout tl.masks ∨ b ∈ bound) →
        (l.map fun b => (strcaseEq e.text b.mask, b.proc)) = (l.map Bound.key).map fun x =>
          (tl.masks.any fun tm => decide (istrFold tm.mask = x.1) && strcaseEq e.text tm.mask,
            x.2.1) := by
      intro l hl
      rw [map_map]
      refine map_congr_left fun b hb => ?_
      have := h.ask_mask (q := fun mask => strcaseEq e.text mask)
        (fun a b hal => hal.strcaseEq hmt e.text) (hl b hb)
      rw [this]
      rfl
    rw [answer_eq_answerOf, answer_eq_answerOf]
    refine answerOf_perm ?_ ?_
    · rw [hask _ fun b hb => .inl (mem_of_mem_filter hb), hask _ fun b hb => .inr (mem_of_mem_filter hb)]
      exact hperm.map _
    · rw [filter_map, length_map]
      refine Nat.le_trans ?_ (ListEdit.length_filter_key_le_one (h.single hht) (istrFold e.text))
      refine Nat.le_trans (monotone_filter_right _ fun b hb => ?_).length_le
        (filter_sublist.filter _).length_le
      exact decide_eq_true (istrFold_of_strcaseEq hb).symm
  · have hlen := hperm.length_eq
    rw [length_map, length_map] at hlen
    rcases hw : (layout tl.masks).filter (wants m k e) with _ | ⟨b, _ | ⟨b', l⟩⟩
    · rw [hw] at hlen
      rw [length_eq_zero_iff.1 hlen.symm]
    · rw [hw] at hlen hperm
      obtain ⟨d, hd⟩ := length_eq_one_iff.1 hlen.symm
      rw [hd] at hperm ⊢
      have hkey : b.key = d.key := singleton_perm_singleton.1 hperm
      rw [answer_singleton, answer_singleton, show b.proc = d.proc from congrArg (·.2.1) hkey]
    · rw [hw, length_cons, length_cons] at hone
      omega

theorem checkTclBind_single_exact (hns : k.bindStackable = false) (hht : k.htStackable = false)
    (hmt : k.matchType = .matchExact) (hok : DispatchOk m k e tl) :
    checkTclBind m k e tl = .ok (tl, (answer e (bound.filter (wants m k e))).outcome e) := by
  have hfor : (bound.filter (wants m k e)).length ≤ 1 :=
    Nat.le_trans (monotone_filter_right bound fun b hb => isFor_of_wants hmt hb).length_le
      (ListEdit.length_filter_key_le_one (h.single hht) (istrFold e.text))
  rw [checkTclBind, if_pos hmt]
  cases htable : tl.maskHt (istrFold e.text) with
  | none =>
    have hnone : bound.filter (wants m k e) = [] := filter_eq_nil_iff.2 fun b hb hwant => by
      have := h.not_isFor htable b hb
      rw [isFor_of_wants hmt hwant] at this
      cases this
    rw [hnone]
    rfl
  | some a =>
    obtain ⟨pre, tm, post, he⟩ := h.shape.entry htable
    have htm : tm ∈ tl.masks := by
      rw [he.masks]
      exact mem_append_right _ mem_cons_self
    rw [DispatchOk, hmt] at hok
    have hready := h.wanted_exact hmt he (hok tm htm he.fold)
    dsimp only
    rw [he.cmdsAt_eq, scanExact_single hns, ← hready]
    rcases hw : bound.filter (wants m k e) with _ | ⟨b, _ | ⟨b', l⟩⟩
    · rfl
    · rw [answer_singleton]
      rfl
    · rw [hw, length_cons, length_cons] at hfor
      omega

theorem checkTclBind_single_scan (hns : k.bindStackable = false) (hht : k.htStackable = false)
    (hmt : k.matchType ≠ .matchExact) (hok : DispatchOk m k e tl) :
    ∃ tl', checkTclBind m k e tl =
      .ok (tl', (answer e ((layout tl.masks).filter (wants m k e))).outcome e) ∧
      Inv m k tl' bound := by
  have hpick := scanMasks_picked (m := m) (e := e) (c := Scan.init) hns
    (h.length_bound_le_one hht) 0 rfl rfl
  rw [checkTclBind, if_neg hmt, finishScan]
  have hout : (scanMasks m k e 0 tl.masks .init).out = false := hpick.out
  have hcalled : (scanMasks m k e 0 tl.masks .init).called = [] := hpick.called
  have hresult : (scanMasks m k e 0 tl.masks .init).result = none := hpick.result
  rw [hout, hcalled, hresult, if_neg Bool.false_ne_true]
  dsimp only
  -- a table that is not stackable is for partial matches, or little is wanted
  have hkind : k.matchType = .matchPartial ∨ (¬ (k.matchType = .matchMask ∨ k.matchType = .matchCase) ∧
      ((layout tl.masks).filter (wants m k e)).length ≤ 1) ∨
      (layout tl.masks).filter (wants m k e) = [] := by
    rw [DispatchOk, hns] at hok
    cases hk : k.matchType with
    | matchExact => exact absurd hk hmt
    | matchPartial => exact .inl rfl
    | matchMask => rw [hk] at hok; exact .inr (.inr hok)
    | matchCase => rw [hk] at hok; exact .inr (.inr hok)
    | matchMode => rw [hk] at hok; exact .inr (.inl ⟨by decide, hok⟩)
    | matchCron => rw [hk] at hok; exact .inr (.inl ⟨by decide, hok⟩)
  cases hfind : ((layout tl.masks).filter (wants m k e)).find? (sure k e) with
  | some b =>
    obtain ⟨hcnt, hhtc⟩ := hpick.found b hfind
    have hmem := mem_of_find?_eq_some hfind
    have hloud : ¬ (k.matchType = .matchMask ∨ k.matchType = .matchCase) := by
      rcases hkind with hk | ⟨hk, -⟩ | hnil
      · rw [hk]
        decide
      · exact hk
      · rw [hnil] at hmem
        cases hmem
    have hanswer : answer e ((layout tl.masks).filter (wants m k e)) = .run b.proc := by
      rcases hkind with hk | ⟨-, hone⟩ | hnil
      · have hsure : sure k e = fun b => strcaseEq e.text b.mask := by
          funext b
          rw [sure, decide_eq_false (not_not.2 hk), Bool.false_or]
        rw [hsure] at hfind
        rw [answer, hfind]
      · rcases hw : (layout tl.masks).filter (wants m k e) with _ | ⟨d, _ | ⟨d', l⟩⟩
        · rw [hw] at hmem
          cases hmem
        · rw [hw] at hmem
          rw [answer_singleton, mem_singleton.1 hmem]
        · rw [hw, length_cons, length_cons] at hone
          omega
      · rw [hnil] at hmem
        cases hmem
    rw [hcnt, hhtc, if_neg Nat.one_ne_zero, if_neg hloud, if_neg (lt_irrefl 1), hanswer]
    refine ⟨_, rfl, ?_⟩
    split
    · exact h.moveToFront hns _
    · exact h
  | none =>
    obtain ⟨hcnt, hhtc⟩ := hpick.other hfind
    have hcnt' : (scanMasks m k e 0 tl.masks .init).cnt =
        ((layout tl.masks).filter (wants m k e)).length := hcnt.trans (zero_add _)
    rcases hw : (layout tl.masks).filter (wants m k e) with _ | ⟨b, l⟩
    · rw [hw, length_nil] at hcnt'
      rw [hcnt', if_pos rfl]
      exact ⟨tl, rfl, h⟩
    · -- nothing is sure, so this is a partial match
      have hpart : k.matchType = .matchPartial := by
        by_contra hne
        rw [hw] at hfind
        have := find?_eq_none.1 hfind b mem_cons_self
        rw [sure, decide_eq_true hne, Bool.true_or] at this
        exact this rfl
      have hsure : sure k e = fun b => strcaseEq e.text b.mask := by
        funext b
        rw [sure, decide_eq_false (not_not.2 hpart), Bool.false_or]
      have hloud : ¬ (k.matchType = .matchMask ∨ k.matchType = .matchCase) := by
        rw [hpart]
        decide
      rw [hsure] at hfind
      rw [answer, ← hw, hfind, hcnt', hhtc, hw, if_neg (by rw [length_cons]; omega), if_neg hloud]
      rcases l with _ | ⟨b', l⟩
      · rw [if_neg (by rw [length_singleton]; omega)]
        refine ⟨_, rfl, ?_⟩
        split
        · exact h.moveToFront hns _
        · exact h
      · rw [if_pos (by rw [length_cons, length_cons]; omega)]
        exact ⟨tl, rfl, h⟩

theorem checkTclBind_single (hns : k.bindStackable = false) (hok : DispatchOk m k e tl) :
    ∃ tl', checkTclBind m k e tl =
      .ok (tl', (answer e (bound.filter (wants m k e))).outcome e) ∧ Inv m k tl' bound := by
  have hht : k.htStackable = false := by
    refine Bool.eq_false_iff.2 fun hst => ?_
    rw [k.stackable_of_ht hst] at hns
    cases hns
  by_cases hmt : k.matchType = .matchExact
  · exact ⟨tl, h.checkTclBind_single_exact hns hht hmt hok, h⟩
  · obtain ⟨tl', hcheck, h'⟩ := h.checkTclBind_single_scan hns hht hmt hok
    have hkind : k.matchType = .matchPartial ∨
        ((layout tl.masks).filter (wants m k e)).length ≤ 1 := by
      rw [DispatchOk, hns] at hok
      cases hk : k.matchType with
      | matchExact => exact absurd hk hmt
      | matchPartial => exact .inl rfl
      | matchMask => rw [hk] at hok; exact .inr (by rw [hok]; exact Nat.zero_le 1)
      | matchCase => rw [hk] at hok; exact .inr (by rw [hok]; exact Nat.zero_le 1)
      | matchMode => rw [hk] at hok; exact .inr hok
      | matchCron => rw [hk] at hok; exact .inr hok
    rw [h.answer_layout hht hkind] at hcheck
    exact ⟨tl', hcheck, h'⟩

end Inv

end Eggdrop.Binds
