import Eggdrop.Binds.Follow
import Eggdrop.Lib.Run

/-!
# Dispatch — which procedures an event triggers

* `callUntil`, `answer`: what an event does by the list of binds, in a stackable table and in one
  that is not.
* `scanCmds_ran`, `scanMasks_ran`, `scanExact_ran`: the loops of `check_tcl_bind` in a stackable
  table call the procedures that are wanted in their order, up to one that ends the dispatch.
* `scanMasks_picked`: in the other tables they find the one that is wanted, or that there are more.
* `Inv.checkTclBind_stackable`, `Inv.checkTclBind_single`: `check_tcl_bind` does what the list says.
-/

namespace Eggdrop.Binds

open List Users

variable {m : Matchers} {k : Kind} {e : Trigger} {tl : BindList} {bound : List Bound}
  {cmd proc flags : CStr} {a : ℕ} {tm : BindMask} {pre post : List BindMask} {c c' c'' : Scan}

/-! ### What an event does by the list of binds -/

/-- The bind is for the text, and its flags are met. -/
def wants (m : Matchers) (k : Kind) (e : Trigger) (b : Bound) : Bool :=
  checkBindMatch m k e.text b.mask && checkBindFlags e.opts b.flags e.atr

/-- The procedure ends the dispatch: with an empty result where the result is to replace the
arguments, or with a 1 where the caller wants that, but not those of the others as well. -/
def Trigger.ends (k : Kind) (e : Trigger) (proc : CStr) : Bool :=
  let logged := e.opts.wantRet && !e.opts.stackRet && (e.ret proc).x = .bindExecLog
  if e.opts.alterArgs then
    (e.ret proc).resultEmpty || (k.matchType = .matchExact && logged)
  else logged

/-- What the procedure gives back is the result of the dispatch. -/
def Trigger.records (k : Kind) (e : Trigger) (proc : CStr) : Bool :=
  e.opts.stackRet && (e.ret proc).x = .bindExecLog &&
    !(e.opts.alterArgs && (k.matchType ≠ .matchExact || (e.ret proc).resultEmpty))

/-- Procedures are called in order, up to one that ends the dispatch. -/
def callUntil (stop : CStr → Bool) : List CStr → List CStr
  | [] => []
  | p :: ps => if stop p then [p] else p :: callUntil stop ps

/-- What an event does in a table that is not stackable. -/
inductive Answer where
  | nomatch
  | ambiguous
  | run (proc : CStr)
deriving DecidableEq, Repr

/-- One of several is ambiguous. -/
def only : List CStr → Answer
  | [] => .nomatch
  | [proc] => .run proc
  | _ => .ambiguous

/-- The bind with the very text of the event, or else the only one. -/
def answer (e : Trigger) (wanted : List Bound) : Answer :=
  match wanted.find? fun b => strcaseEq e.text b.mask with
  | some b => .run b.proc
  | none => only (wanted.map Bound.proc)

/-- The procedures called, and what `check_tcl_bind` returns. -/
def Answer.outcome (e : Trigger) : Answer → List CStr × Result
  | .nomatch => ([], .bindNomatch)
  | .ambiguous => ([], .bindAmbiguous)
  | .run proc => ([proc], (e.ret proc).x)

theorem callUntil_of_not {stop : CStr → Bool} {ps : List CStr} (h : ps.any stop = false) :
    callUntil stop ps = ps := by
  induction ps with
  | nil => rfl
  | cons p ps ih =>
    rw [any_cons, Bool.or_eq_false_iff] at h
    rw [callUntil, if_neg (by simp [h.1]), ih h.2]

theorem callUntil_append_of_any {stop : CStr → Bool} {ps : List CStr} (h : ps.any stop = true)
    (qs : List CStr) : callUntil stop (ps ++ qs) = callUntil stop ps := by
  induction ps with
  | nil => cases h
  | cons p ps ih =>
    rw [cons_append, callUntil, callUntil]
    by_cases hp : stop p
    · rw [if_pos hp, if_pos hp]
    · rw [any_cons, Bool.eq_false_iff.2 hp, Bool.false_or] at h
      rw [if_neg hp, if_neg hp, ih h]

theorem callUntil_append_of_not {stop : CStr → Bool} {ps : List CStr} (h : ps.any stop = false)
    (qs : List CStr) : callUntil stop (ps ++ qs) = ps ++ callUntil stop qs := by
  induction ps with
  | nil => rfl
  | cons p ps ih =>
    rw [any_cons, Bool.or_eq_false_iff] at h
    rw [cons_append, callUntil, if_neg (by simp [h.1]), ih h.2, cons_append]

/-! ### Stackable tables -/

/-- The procedures `ps` were to be called one after the other. -/
structure Ran (k : Kind) (e : Trigger) (ps : List CStr) (c c' : Scan) : Prop where
  called : c'.called = c.called ++ callUntil (e.ends k) ps
  out : c'.out = ps.any (e.ends k)
  htc : c'.htc = c.htc
  finish : c'.finish = c.finish
  cnt : c'.cnt = c.cnt + (callUntil (e.ends k) ps).length
  result : c'.result.isSome = (c.result.isSome || (callUntil (e.ends k) ps).any (e.records k))

namespace Ran

variable {ps qs : List CStr}

theorem nil (h : c.out = false) : Ran k e [] c c :=
  ⟨(append_nil _).symm, h, rfl, rfl, rfl, (Bool.or_false _).symm⟩

theorem ended (h : Ran k e ps c c') (hend : c'.out = true) (qs : List CStr) :
    Ran k e (ps ++ qs) c c' := by
  have hany : ps.any (e.ends k) = true := h.out ▸ hend
  refine ⟨?_, by rw [any_append, hany, Bool.true_or, hend], h.htc, h.finish, ?_, ?_⟩
  · rw [callUntil_append_of_any hany, h.called]
  · rw [callUntil_append_of_any hany, h.cnt]
  · rw [callUntil_append_of_any hany, h.result]

theorem append (h : Ran k e ps c c') (hgo : c'.out = false) (h' : Ran k e qs c' c'') :
    Ran k e (ps ++ qs) c c'' := by
  have hany : ps.any (e.ends k) = false := h.out ▸ hgo
  refine ⟨?_, by rw [any_append, hany, Bool.false_or, h'.out], h'.htc.trans h.htc,
    h'.finish.trans h.finish, ?_, ?_⟩
  · rw [callUntil_append_of_not hany, h'.called, h.called, callUntil_of_not hany, append_assoc]
  · rw [callUntil_append_of_not hany, h'.cnt, h.cnt, callUntil_of_not hany, length_append, add_assoc]
  · rw [callUntil_append_of_not hany, h'.result, h.result, callUntil_of_not hany, any_append,
      Bool.or_assoc]

theorem single (hcalled : c'.called = c.called ++ [proc]) (hout : c'.out = e.ends k proc)
    (hhtc : c'.htc = c.htc) (hfinish : c'.finish = c.finish) (hcnt : c'.cnt = c.cnt + 1)
    (hresult : c'.result.isSome = (c.result.isSome || e.records k proc)) :
    Ran k e [proc] c c' := by
  have hone : callUntil (e.ends k) [proc] = [proc] := by
    rw [callUntil]
    split <;> rfl
  refine ⟨by rw [hone, hcalled], ?_, hhtc, hfinish, by rw [hone, hcnt]; rfl, ?_⟩
  · rw [hout, any_cons, any_nil, Bool.or_false]
  · rw [hone, hresult, any_cons, any_nil, Bool.or_false]

end Ran

/-- The procedures of live commands whose flags are met. -/
def ready (e : Trigger) (cmds : List Cmd) : List CStr :=
  (cmds.filter fun tc => tc.live && checkBindFlags e.opts tc.flags e.atr).map Cmd.funcName

theorem ready_cons_of_skip {tc : Cmd} {tcs : List Cmd}
    (h : (tc.deleted || !checkBindFlags e.opts tc.flags e.atr) = true) :
    ready e (tc :: tcs) = ready e tcs := by
  have hneg : ¬ (tc.live && checkBindFlags e.opts tc.flags e.atr) = true := by
    rw [Cmd.live, Bool.and_eq_true, not_and, Bool.not_eq_true']
    intro hdel
    rw [hdel, Bool.false_or, Bool.not_eq_true'] at h
    rw [h]
    exact Bool.false_ne_true
  rw [ready, filter_cons_of_neg
    (p := fun tc : Cmd => tc.live && checkBindFlags e.opts tc.flags e.atr) hneg]
  rfl

theorem ready_cons_of_run {tc : Cmd} {tcs : List Cmd}
    (h : ¬ (tc.deleted || !checkBindFlags e.opts tc.flags e.atr) = true) :
    ready e (tc :: tcs) = [tc.funcName] ++ ready e tcs := by
  rw [Bool.not_eq_true, Bool.or_eq_false_iff, Bool.not_eq_false'] at h
  have hpos : (tc.live && checkBindFlags e.opts tc.flags e.atr) = true := by
    rw [Cmd.live, h.1, h.2]
    rfl
  rw [ready, filter_cons_of_pos
    (p := fun tc : Cmd => tc.live && checkBindFlags e.opts tc.flags e.atr) hpos, map_cons]
  rfl

/-- `c'` is `c` with one more procedure called. -/
structure Called (proc : CStr) (c c' : Scan) : Prop where
  called : c'.called = c.called ++ [proc]
  out : c'.out = c.out
  htc : c'.htc = c.htc
  finish : c'.finish = c.finish
  cnt : c'.cnt = c.cnt + 1
  result : c'.result = c.result

theorem Ran.cons {ps : List CStr} {loop : Scan → Scan} {c₁ : Scan} (h₁ : Called proc c c₁)
    (hc : c.out = false) (hloop : ∀ c, c.out = false → Ran k e ps c (loop c)) (x : Result)
    (first ret last : Bool) (hends : e.ends k proc = (first || (!ret && last)))
    (hrec : e.records k proc = (!first && ret)) :
    Ran k e ([proc] ++ ps) c (if first = true then c₁.leave
      else if ret = true then loop (c₁.record x) else if last = true then c₁.leave else loop c₁) := by
  obtain ⟨hcalled, hout, hhtc, hfinish, hcnt, hresult⟩ := h₁
  replace hout := hout.trans hc
  cases first with
  | true =>
    have hkeep : c₁.result.isSome = (c.result.isSome || e.records k proc) := by
      rw [hrec, hresult, Bool.not_true, Bool.false_and, Bool.or_false]
    have hran : Ran k e [proc] c c₁.leave :=
      .single hcalled (by rw [hends, Bool.true_or]; rfl) hhtc hfinish hcnt hkeep
    exact hran.ended rfl ps
  | false =>
    rw [Bool.not_false, Bool.true_and] at hrec
    rw [Bool.false_or] at hends
    rw [if_neg Bool.false_ne_true]
    cases ret with
    | true =>
      have hgo : c₁.out = e.ends k proc := by rw [hends, hout, Bool.not_true, Bool.false_and]
      have hkeep : (c₁.record x).result.isSome = (c.result.isSome || e.records k proc) := by
        rw [hrec, Bool.or_true, Scan.record, Option.isSome_or]
        exact Bool.or_true _
      have hran : Ran k e [proc] c (c₁.record x) := .single hcalled hgo hhtc hfinish hcnt hkeep
      rw [if_pos rfl]
      exact hran.append hout (hloop _ hout)
    | false =>
      have hkeep : c₁.result.isSome = (c.result.isSome || e.records k proc) := by
        rw [hrec, hresult, Bool.or_false]
      rw [Bool.not_false, Bool.true_and] at hends
      rw [if_neg Bool.false_ne_true]
      cases last with
      | true =>
        have hran : Ran k e [proc] c c₁.leave := .single hcalled hends.symm hhtc hfinish hcnt hkeep
        exact hran.ended rfl ps
      | false =>
        have hran : Ran k e [proc] c c₁ :=
          .single hcalled (hout.trans hends.symm) hhtc hfinish hcnt hkeep
        exact hran.append hout (hloop _ hout)

theorem scanCmds_ran (hstack : k.bindStackable = true) (hmt : k.matchType ≠ .matchExact) (mi : ℕ)
    (mask : CStr) (tcs : List Cmd) (hc : c.out = false) :
    Ran k e (ready e tcs) c (scanCmds k e mi mask tcs c) := by
  induction tcs generalizing c with
  | nil => exact .nil hc
  | cons tc tcs ih =>
    rw [scanCmds]
    by_cases hskip : (tc.deleted || !checkBindFlags e.opts tc.flags e.atr) = true
    · rw [if_pos hskip, ready_cons_of_skip hskip]
      exact ih hc
    rw [if_neg hskip, ready_cons_of_run hskip, if_neg (by rw [hstack]; exact Bool.false_ne_true)]
    have hexact : decide (k.matchType = .matchExact) = false := decide_eq_false hmt
    have hother : decide (k.matchType ≠ .matchExact) = true := decide_eq_true hmt
    have hloop : ∀ c, c.out = false → Ran k e (ready e tcs) c (scanCmds k e mi mask tcs c) :=
      fun c hc => ih hc
    have hcalled : Called tc.funcName c ((c.count mi).dispatch e tc.funcName) :=
      ⟨rfl, rfl, rfl, rfl, rfl, rfl⟩
    dsimp only
    cases halter : e.opts.alterArgs with
    | true =>
      refine Ran.cons hcalled hc hloop (e.ret tc.funcName).x (e.ret tc.funcName).resultEmpty false false
        ?_ ?_
      · rw [Trigger.ends, if_pos halter, hexact, Bool.false_and, Bool.and_false]
      · rw [Trigger.records, halter, hother, Bool.true_or, Bool.and_true, Bool.not_true,
          Bool.and_false, Bool.and_false]
    | false =>
      refine Ran.cons hcalled hc hloop (e.ret tc.funcName).x false _ _ ?_ ?_
      · rw [Trigger.ends, halter]
        cases e.opts.stackRet <;> cases e.opts.wantRet <;> simp
      · rw [Trigger.records, halter, Bool.false_and, Bool.not_false, Bool.and_true, Bool.true_and]

theorem scanExact_ran (hstack : k.bindStackable = true) (hmt : k.matchType = .matchExact)
    (tcs : List Cmd) (hc : c.out = false) : Ran k e (ready e tcs) c (scanExact k e tcs c) := by
  induction tcs generalizing c with
  | nil => exact .nil hc
  | cons tc tcs ih =>
    rw [scanExact]
    by_cases hskip : (tc.deleted || !checkBindFlags e.opts tc.flags e.atr) = true
    · rw [if_pos hskip, ready_cons_of_skip hskip]
      exact ih hc
    rw [if_neg hskip, ready_cons_of_run hskip, if_neg (by rw [hstack]; exact Bool.false_ne_true)]
    have hexact : decide (k.matchType = .matchExact) = true := decide_eq_true hmt
    have hother : decide (k.matchType ≠ .matchExact) = false := decide_eq_false (not_not.2 hmt)
    have hloop : ∀ c, c.out = false → Ran k e (ready e tcs) c (scanExact k e tcs c) :=
      fun c hc => ih hc
    dsimp only
    have hcalled : Called tc.funcName c ({ c with cnt := c.cnt + 1 }.dispatch e tc.funcName) :=
      ⟨rfl, rfl, rfl, rfl, rfl, rfl⟩
    refine Ran.cons hcalled hc hloop (e.ret tc.funcName).x _ _ _ ?_ ?_
    · rw [Trigger.ends, hexact]
      cases e.opts.alterArgs <;> cases e.opts.stackRet <;> cases e.opts.wantRet <;> simp
    · rw [Trigger.records, hother, Bool.false_or, Bool.and_comm]

theorem filter_wants_bound (tm : BindMask) :
    (tm.bound.filter (wants m k e)).map Bound.proc =
      if checkBindMatch m k e.text tm.mask then ready e tm.cmds else [] := by
  by_cases hmatch : checkBindMatch m k e.text tm.mask = true
  · have hwants : ∀ tc : Cmd, wants m k e (tc.toBound tm.mask) =
        checkBindFlags e.opts tc.flags e.atr := fun tc => by
      show (checkBindMatch m k e.text tm.mask && _) = _
      rw [hmatch, Bool.true_and]
      rfl
    rw [if_pos hmatch, BindMask.bound, filter_map, map_map, ready, filter_filter]
    simp only [Function.comp_def, hwants, Bool.and_comm]
    rfl
  · rw [if_neg hmatch, filter_eq_nil_iff.2, map_nil]
    intro b hb
    rw [wants, mem_bound hb, Bool.eq_false_iff.2 hmatch, Bool.false_and]
    exact Bool.false_ne_true

theorem filter_wants_cons (tm : BindMask) (tms : List BindMask) :
    (layout (tm :: tms)).filter (wants m k e) =
      tm.bound.filter (wants m k e) ++ (layout tms).filter (wants m k e) := by
  rw [layout, flatMap_cons, filter_append]
  rfl

theorem scanMasks_of_out (mi : ℕ) (tms : List BindMask) (h : c.out = true) :
    scanMasks m k e mi tms c = c := by
  cases tms with
  | nil => rfl
  | cons tm tms => rw [scanMasks, if_pos (by rw [h, Bool.or_true])]

theorem scanMasks_ran (hstack : k.bindStackable = true) (hmt : k.matchType ≠ .matchExact)
    (tms : List BindMask) (mi : ℕ) (hc : c.out = false) (hf : c.finish = false) :
    Ran k e (((layout tms).filter (wants m k e)).map Bound.proc) c (scanMasks m k e mi tms c) := by
  induction tms generalizing c mi with
  | nil => exact .nil hc
  | cons tm tms ih =>
    rw [scanMasks, if_neg (by rw [hc, hf]; exact Bool.false_ne_true), filter_wants_cons, map_append,
      filter_wants_bound]
    by_cases hmatch : checkBindMatch m k e.text tm.mask = true
    · have hran := scanCmds_ran hstack hmt mi tm.mask tm.cmds hc (e := e)
      rw [if_pos hmatch, if_neg (by rw [hmatch]; exact Bool.false_ne_true)]
      by_cases hout : (scanCmds k e mi tm.mask tm.cmds c).out = true
      · rw [scanMasks_of_out _ _ hout]
        exact hran.ended hout _
      · have hgo : (scanCmds k e mi tm.mask tm.cmds c).out = false := Bool.eq_false_iff.2 hout
        exact hran.append hgo (ih _ hgo (hran.finish.trans hf))
    · rw [if_neg hmatch, nil_append, if_pos (by rw [Bool.eq_false_iff.2 hmatch]; rfl)]
      exact ih _ hc hf

theorem isFor_of_wants (hmt : k.matchType = .matchExact) {b : Bound} (hb : wants m k e b = true) :
    b.isFor e.text = true := by
  rw [wants, checkBindMatch, hmt, Bool.and_eq_true] at hb
  exact decide_eq_true (istrFold_of_strcaseEq hb.1).symm

/-- The only procedure that is wanted ends the dispatch, or its result is the one returned. -/
def NotAlone (m : Matchers) (k : Kind) (e : Trigger) (tl : BindList) : Prop :=
  ∀ b, (layout tl.masks).filter (wants m k e) = [b] →
    e.ends k b.proc = true ∨ e.records k b.proc = true

/-- What an event needs.  The hash table takes more texts for one than an exact match does; a
procedure that is called for a partial match, a mode or a time is taken for the one that is yet to be
called, if it is the only one; and tables that are not stackable have no use for the other kinds of
matches. -/
def DispatchOk (m : Matchers) (k : Kind) (e : Trigger) (tl : BindList) : Prop :=
  match k.matchType, k.bindStackable with
  | .matchExact, _ => ∀ tm ∈ tl.masks, istrFold tm.mask = istrFold e.text →
      strcaseEq e.text tm.mask = true ∨ ready e tm.cmds = []
  | .matchMask, true | .matchCase, true => True
  | .matchPartial, true | .matchMode, true | .matchCron, true => NotAlone m k e tl
  | .matchPartial, false => True
  | .matchMask, false | .matchCase, false => (layout tl.masks).filter (wants m k e) = []
  | .matchMode, false | .matchCron, false => ((layout tl.masks).filter (wants m k e)).length ≤ 1

namespace Inv

variable (h : Inv m k tl bound)

include h

theorem map_wanted (hstack : k.bindStackable = true) :
    ((layout tl.masks).filter (wants m k e)).map Bound.proc =
      (bound.filter (wants m k e)).map Bound.proc := by
  have hsplit : ∀ l : List Bound, (l.filter (wants m k e)).map Bound.proc =
      (((l.filter fun b => checkBindMatch m k e.text b.mask).map Bound.key).filter
        fun x => checkBindFlags e.opts x.2.2 e.atr).map fun x => x.2.1 := by
    intro l
    have hcomm : wants m k e = fun b => checkBindFlags e.opts b.flags e.atr &&
        checkBindMatch m k e.text b.mask := funext fun b => Bool.and_comm _ _
    rw [filter_map, map_map, filter_filter, hcomm]
    rfl
  rw [hsplit, hsplit, h.same _ (.text hstack e.text)]

theorem map_ready (he : Entry tl e.text a pre tm post) :
    ((bound.filter (·.isFor e.text)).filter fun b => checkBindFlags e.opts b.flags e.atr).map
      Bound.proc = ready e tm.cmds := by
  have hkey : ∀ l : List Bound, (l.filter fun b => checkBindFlags e.opts b.flags e.atr).map Bound.proc =
      ((l.map Bound.key).filter fun x => checkBindFlags e.opts x.2.2 e.atr).map fun x => x.2.1 := by
    intro l
    rw [filter_map, map_map]
    rfl
  have hcomm : (fun tc : Cmd => tc.live && checkBindFlags e.opts tc.flags e.atr) =
      fun tc => checkBindFlags e.opts tc.flags e.atr && tc.live := funext fun tc => Bool.and_comm _ _
  rw [hkey, h.filter_isFor he, ← hkey, BindMask.bound, filter_map, map_map, ready, filter_filter,
    hcomm]
  rfl

theorem wanted_exact (hmt : k.matchType = .matchExact) (he : Entry tl e.text a pre tm post)
    (hok : strcaseEq e.text tm.mask = true ∨ ready e tm.cmds = []) :
    (bound.filter (wants m k e)).map Bound.proc = ready e tm.cmds := by
  have hsub : ∀ b ∈ bound, wants m k e b = true →
      (b.isFor e.text && checkBindFlags e.opts b.flags e.atr) = true := by
    intro b _ hb
    rw [isFor_of_wants hmt hb, Bool.true_and]
    exact (Bool.and_eq_true_iff.1 hb).2
  have hready := h.map_ready he
  rw [filter_filter] at hready
  rcases hok with hexact | hnone
  · have hsame : ∀ b ∈ bound, wants m k e b =
        (checkBindFlags e.opts b.flags e.atr && b.isFor e.text) := by
      intro b hb
      rw [Bool.and_comm, Bool.eq_iff_iff]
      refine ⟨hsub b hb, fun hfor => ?_⟩
      obtain ⟨hfor, hflags⟩ := Bool.and_eq_true_iff.1 hfor
      obtain ⟨x, hx, hal⟩ := h.alike b hb
      have hxt : x = tm := by
        have htm : tm ∈ tl.masks := by rw [he.masks]; exact mem_append_right _ mem_cons_self
        exact inj_on_of_nodup_map h.shape.folds hx htm
          (hal.1.trans ((of_decide_eq_true hfor).trans he.fold.symm))
      rw [wants, ← hal.2, hxt, checkBindMatch, hmt]
      exact Bool.and_eq_true_iff.2 ⟨hexact, hflags⟩
    rw [filter_congr hsame, ← hready]
  · rw [hnone, map_eq_nil_iff] at hready
    rw [hnone, map_eq_nil_iff, filter_eq_nil_iff]
    intro b hb hwant
    have hgone := filter_eq_nil_iff.1 hready b hb
    rw [Bool.and_comm] at hgone
    exact hgone (hsub b hb hwant)

theorem checkTclBind_stackable (hstack : k.bindStackable = true) (hok : DispatchOk m k e tl) :
    ∃ r, checkTclBind m k e tl =
      .ok (tl, callUntil (e.ends k) ((bound.filter (wants m k e)).map Bound.proc), r) := by
  rw [checkTclBind]
  by_cases hmt : k.matchType = .matchExact
  · rw [if_pos hmt]
    cases hht : tl.maskHt (istrFold e.text) with
    | none =>
      have hnone : bound.filter (wants m k e) = [] := filter_eq_nil_iff.2 fun b hb hwant => by
        have := h.not_isFor hht b hb
        rw [isFor_of_wants hmt hwant] at this
        cases this
      rw [hnone]
      exact ⟨_, rfl⟩
    | some a =>
      obtain ⟨pre, tm, post, he⟩ := h.shape.entry hht
      have htm : tm ∈ tl.masks := by rw [he.masks]; exact mem_append_right _ mem_cons_self
      rw [DispatchOk, hmt] at hok
      rw [h.wanted_exact hmt he (hok tm htm he.fold)]
      have hran := scanExact_ran (e := e) (c := Scan.init) hstack hmt tm.cmds rfl
      dsimp only
      rw [he.cmdsAt_eq, finishExact]
      have hcalled : (scanExact k e tm.cmds .init).called = callUntil (e.ends k) (ready e tm.cmds) :=
        hran.called
      have hhtc : (scanExact k e tm.cmds .init).htc = none := hran.htc
      rw [hcalled, hhtc]
      split
      · exact ⟨_, rfl⟩
      · split
        · exact ⟨_, rfl⟩
        · cases (scanExact k e tm.cmds .init).result <;> exact ⟨_, rfl⟩
  · have hran := scanMasks_ran (m := m) (e := e) (c := Scan.init) hstack hmt tl.masks 0 rfl rfl
    rw [if_neg hmt, finishScan]
    have hcalled : (scanMasks m k e 0 tl.masks .init).called =
        callUntil (e.ends k) ((bound.filter (wants m k e)).map Bound.proc) := by
      rw [← h.map_wanted hstack]
      exact hran.called
    rw [hcalled]
    by_cases hout : (scanMasks m k e 0 tl.masks .init).out = true
    · rw [if_pos hout]
      exact ⟨_, rfl⟩
    rw [if_neg hout]
    by_cases hcnt : (scanMasks m k e 0 tl.masks .init).cnt = 0
    · rw [if_pos hcnt]
      exact ⟨_, rfl⟩
    rw [if_neg hcnt]
    cases hresult : (scanMasks m k e 0 tl.masks .init).result with
    | some r => exact ⟨_, rfl⟩
    | none =>
      dsimp only
      by_cases hquiet : k.matchType = .matchMask ∨ k.matchType = .matchCase
      · rw [if_pos hquiet]
        exact ⟨_, rfl⟩
      rw [if_neg hquiet]
      by_cases hmore : (scanMasks m k e 0 tl.masks .init).cnt > 1
      · rw [if_pos hmore]
        exact ⟨_, rfl⟩
      -- one procedure was called, and none is left to be called at the end
      exfalso
      have hany : (((layout tl.masks).filter (wants m k e)).map Bound.proc).any (e.ends k) = false :=
        hran.out ▸ Bool.eq_false_iff.2 hout
      have hlen := hran.cnt
      have hrecs := hran.result
      rw [callUntil_of_not hany, hresult] at hrecs
      rw [callUntil_of_not hany, length_map] at hlen
      have hone : ((layout tl.masks).filter (wants m k e)).length = 1 := by
        have hinit : Scan.init.cnt = 0 := rfl
        omega
      obtain ⟨b, hb⟩ := length_eq_one_iff.1 hone
      have halone : NotAlone m k e tl := by
        rw [DispatchOk, hstack] at hok
        cases hk : k.matchType with
        | matchExact => exact absurd hk hmt
        | matchMask => exact absurd (.inl hk) hquiet
        | matchCase => exact absurd (.inr hk) hquiet
        | matchPartial => rwa [hk] at hok
        | matchMode => rwa [hk] at hok
        | matchCron => rwa [hk] at hok
      rw [hb] at hany hrecs
      rcases halone b hb with hends | hrec
      · simp [hends] at hany
      · simp [hrec] at hrecs

end Inv

end Eggdrop.Binds
