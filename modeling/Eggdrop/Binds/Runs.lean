import Eggdrop.Binds.Single

/-!
# Runs — a bind table over its life

A table is bound to, unbound from, collected and dispatched to in any order.  Beside it the list of
what is bound is kept, which only binds and unbinds change.

* `Good`: what a step needs so that the table follows the list.
* `right_along`: every event triggers what is bound for it, in the order it was bound, or up to a
  procedure that ends the dispatch; and in a table that is not stackable it gives the answer of the
  list, whatever was dispatched before.
-/

namespace Eggdrop.Binds

open List

inductive Event where
  | bind (flags cmd proc : CStr)
  | unbind (cmd proc : CStr)
  | collect (other : Bool)
  | dispatch (e : Trigger)

structure System where
  table : BindList
  bound : List Bound

def System.init : System := ⟨⟨[], fun _ => none, 0, false⟩, []⟩

variable (m : Matchers) (k : Kind)

def step (s : System) : Event → Except Fault System
  | .bind flags cmd proc =>
    .ok ⟨s.table.bindBindEntry k flags cmd proc, bindBound k flags cmd proc s.bound⟩
  | .unbind cmd proc => .ok ⟨s.table.unbindBindEntry cmd proc, unbindBound cmd proc s.bound⟩
  | .collect other => .ok { s with table := s.table.garbageCollect other }
  | .dispatch e => (checkTclBind m k e s.table).map fun r => { s with table := r.1 }

/-- What a step needs. -/
def Good (s : System) : Event → Prop
  | .bind _ cmd proc => BindOk m k s.table cmd proc
  | .unbind _ _ => True
  | .collect other => CollectOk m k s.table other
  | .dispatch e => DispatchOk m k e s.table

/-- The procedures that an event calls and what it returns, if it returns. -/
def calls (s : System) (e : Trigger) : Option (List CStr × Result) :=
  (checkTclBind m k e s.table).toOption.map Prod.snd

/-- The procedures bound for an event, in the order they were bound. -/
def wanted (s : System) (e : Trigger) : List Bound := s.bound.filter (wants m k e)

/-- An event does what the list of binds says, procedures being called up to one that meets
`stop`. -/
def Right (stop : Trigger → CStr → Bool) (s : System) : Event → Prop
  | .dispatch e =>
    if k.bindStackable then
      (calls m k s e).map Prod.fst = some (callUntil (stop e) ((wanted m k s e).map Bound.proc))
    else calls m k s e = some ((answer e (wanted m k s e)).outcome e)
  | .bind _ _ _ | .unbind _ _ | .collect _ => True

instance (stop : Trigger → CStr → Bool) (s : System) : ∀ e, Decidable (Right m k stop s e)
  | .dispatch e => inferInstanceAs (Decidable (if k.bindStackable then
      (calls m k s e).map Prod.fst = some (callUntil (stop e) ((wanted m k s e).map Bound.proc))
      else calls m k s e = some ((answer e (wanted m k s e)).outcome e)))
  | .bind _ _ _ | .unbind _ _ | .collect _ => isTrue trivial

variable {m k} {s s' : System} {e : Event}

theorem Inv.init : Inv m k System.init.table System.init.bound :=
  ⟨⟨nodup_nil, nodup_nil, nofun, fun _ _ => ⟨nofun, fun ⟨_, h, _⟩ => nomatch h⟩⟩, nofun,
    fun _ => nodup_nil, fun _ _ => rfl⟩

theorem Inv.step (h : Inv m k s.table s.bound) (hok : Good m k s e) :
    ∃ s', step m k s e = .ok s' ∧ Inv m k s'.table s'.bound := by
  cases e with
  | bind flags cmd proc => exact ⟨_, rfl, h.bind hok flags⟩
  | unbind cmd proc => exact ⟨_, rfl, h.unbind cmd proc⟩
  | collect other => exact ⟨_, rfl, h.garbageCollect hok⟩
  | dispatch e =>
    by_cases hstack : k.bindStackable = true
    · obtain ⟨r, hr⟩ := h.checkTclBind_stackable hstack hok
      exact ⟨s, by rw [Binds.step, hr]; rfl, h⟩
    · obtain ⟨tl', hr, h'⟩ := h.checkTclBind_single (Bool.eq_false_iff.2 hstack) hok
      exact ⟨{ s with table := tl' }, by rw [Binds.step, hr]; rfl, h'⟩

theorem Inv.right (h : Inv m k s.table s.bound) (hok : Good m k s e) :
    Right m k (fun e => e.ends k) s e := by
  cases e with
  | bind flags cmd proc => trivial
  | unbind cmd proc => trivial
  | collect other => trivial
  | dispatch e =>
    rw [Right]
    by_cases hstack : k.bindStackable = true
    · obtain ⟨r, hr⟩ := h.checkTclBind_stackable hstack hok
      rw [if_pos hstack, calls, hr]
      rfl
    · obtain ⟨tl', hr, -⟩ := h.checkTclBind_single (Bool.eq_false_iff.2 hstack) hok
      rw [if_neg hstack, calls, hr]
      rfl

/-- Every event does what the list of binds says. -/
theorem right_along (m : Matchers) (k : Kind) (es : List Event)
    (h : Machine.Along (step m k) (Good m k) .init es) :
    (∃ s, Machine.run (step m k) .init es = .ok s) ∧
      Machine.Along (step m k) (Right m k fun e => e.ends k) .init es := by
  have hkeep : ∀ s e s', Inv m k s.table s.bound → Good m k s e → step m k s e = .ok s' →
      Inv m k s'.table s'.bound := by
    intro s e s' hi hg hs
    obtain ⟨t, ht, hinv⟩ := hi.step hg
    rw [hs] at ht
    exact Except.ok.inj ht ▸ hinv
  have hinit : Inv m k System.init.table System.init.bound := Inv.init
  refine ⟨?_, Machine.Along.of_inv hkeep (fun s e hi hg => hi.right hg) hinit h⟩
  obtain ⟨s, hs, -⟩ := Machine.run_ok_of_along (fun s e hi hg => Inv.step hi hg) hinit h
  exact ⟨s, hs⟩

/-! ### Exact matches -/

/-- What a step needs in a table for exact matches: the texts that the hash table takes for one are
one, and a collection swaps no commands of a mask. -/
def ExactOk (s : System) : Event → Prop
  | .bind _ cmd _ =>
    ∀ tm ∈ s.table.masks, istrFold tm.mask = istrFold cmd → strcaseEq tm.mask cmd = true
  | .unbind _ _ => True
  | .collect other => (s.table.dirty || other) = true →
    ∀ tm ∈ s.table.masks, SwapRemove.Calm Cmd.deleted Cmd.live tm.cmds
  | .dispatch e => ∀ tm ∈ s.table.masks, istrFold tm.mask = istrFold e.text →
    strcaseEq e.text tm.mask = true ∨ ready e tm.cmds = []

instance (s : System) : ∀ e, Decidable (ExactOk s e)
  | .bind _ cmd _ => inferInstanceAs (Decidable (∀ tm ∈ s.table.masks,
      istrFold tm.mask = istrFold cmd → strcaseEq tm.mask cmd = true))
  | .unbind _ _ => isTrue trivial
  | .collect other => inferInstanceAs (Decidable ((s.table.dirty || other) = true →
      ∀ tm ∈ s.table.masks, SwapRemove.Calm Cmd.deleted Cmd.live tm.cmds))
  | .dispatch e => inferInstanceAs (Decidable (∀ tm ∈ s.table.masks,
      istrFold tm.mask = istrFold e.text → strcaseEq e.text tm.mask = true ∨ ready e tm.cmds = []))

theorem Inv.good_of_exact (h : Inv m k s.table s.bound) (hmt : k.matchType = .matchExact)
    (hok : ExactOk s e) : Good m k s e := by
  have hmatch : ∀ text mask, checkBindMatch m k text mask = strcaseEq text mask := by
    intro text mask
    rw [checkBindMatch, hmt]
  cases e with
  | unbind cmd proc => trivial
  | dispatch e => rwa [Good, DispatchOk, hmt]
  | bind flags cmd proc =>
    intro pre tm post hmasks hfold
    have htm : tm ∈ s.table.masks := by
      rw [hmasks]
      exact mem_append_right _ mem_cons_self
    refine ⟨⟨hfold, fun text => ?_⟩, fun _ _ x hx _ text htext => ?_⟩
    · rw [hmatch, hmatch, strcaseEq_comm text, strcaseEq_comm text]
      exact strcaseEq_congr_left (hok tm htm hfold) text
    · rw [hmatch] at htext ⊢
      refine Bool.eq_false_iff.2 fun hxt => ?_
      have hfolds := h.shape.folds
      rw [hmasks, map_append, map_cons, nodup_append, nodup_cons] at hfolds
      refine hfolds.2.1.1 (mem_map.2 ⟨x, hx, ?_⟩)
      rw [← istrFold_of_strcaseEq hxt, istrFold_of_strcaseEq htext]
  | collect other =>
    intro hdirty
    refine ⟨hok hdirty, fun _ text => SwapRemove.Calm.of_all (Nat.le_trans ?_
      (h.shape.length_filter_fold (istrFold text)))⟩
    refine (monotone_filter_right _ fun tm htm => ?_).length_le
    rw [Bool.and_eq_true, hmatch] at htm
    exact decide_eq_true (istrFold_of_strcaseEq htm.2).symm

theorem along_good_of_exact (hmt : k.matchType = .matchExact) {es : List Event}
    (h : Machine.Along (step m k) ExactOk .init es) :
    Machine.Along (step m k) (Good m k) .init es := by
  have hkeep : ∀ s e s', Inv m k s.table s.bound → ExactOk s e → step m k s e = .ok s' →
      Inv m k s'.table s'.bound := by
    intro s e s' hi hg hs
    obtain ⟨t, ht, hinv⟩ := hi.step (hi.good_of_exact hmt hg)
    rw [hs] at ht
    exact Except.ok.inj ht ▸ hinv
  have hinit : Inv m k System.init.table System.init.bound := Inv.init
  exact Machine.Along.of_inv hkeep (fun s e hi hg => hi.good_of_exact hmt hg) hinit h

/-! ### Events that go as they should, and others -/

/-- An event for a text, whose procedures all give back the same. -/
def Trigger.plain (text : CStr) (opts : Options) (ret : Ret) : Trigger :=
  ⟨text, .zero, opts, fun _ => ret⟩

def Options.plain : Options := ⟨false, false, false, false, false, false, false⟩

/-- The table of events. -/
def evnt : Kind := ⟨.matchExact, true, true, fun _ => rfl⟩

/-- The matching of texts by masks, for a mask that is a star and for others without wildcards. -/
def starMatchers : Matchers :=
  ⟨fun mask text => mask == ['*'] || mask == text, fun mask text => mask == ['*'] || mask == text,
    fun mask text => mask == text⟩

/-- A procedure of three is unbound, and the others are called in their order. -/
theorem right_along_rehash :
    (∃ s, Machine.run (step starMatchers evnt) .init
      [.bind "-".toList "rehash".toList ['a'], .bind "-".toList "Rehash".toList ['b'],
        .bind "-".toList "rehash".toList ['c'], .unbind "rehash".toList ['b'], .collect false,
        .dispatch (.plain "rehash".toList .plain ⟨.bindExecuted, false⟩)] = .ok s) ∧
      Machine.Along (step starMatchers evnt) (Right starMatchers evnt fun e => e.ends evnt) .init
        [.bind "-".toList "rehash".toList ['a'], .bind "-".toList "Rehash".toList ['b'],
          .bind "-".toList "rehash".toList ['c'], .unbind "rehash".toList ['b'], .collect false,
          .dispatch (.plain "rehash".toList .plain ⟨.bindExecuted, false⟩)] :=
  right_along starMatchers evnt _ (along_good_of_exact rfl (by decide +kernel))

/-- A procedure that gives back 1 ends the dispatch where the caller wants that; a collection swaps
procedures; and a mode that one bind is for is the end of the bot. -/
theorem not_right_along_all :
    (¬ Machine.Along (step starMatchers ⟨.matchMask, true, true, fun _ => rfl⟩)
      (Right starMatchers ⟨.matchMask, true, true, fun _ => rfl⟩ fun _ _ => false) .init
      [.bind "-".toList ['*'] ['a'], .bind "-".toList ['*'] ['b'],
        .dispatch (.plain "text".toList { Options.plain with wantRet := true } ⟨.bindExecLog, false⟩)]) ∧
    (¬ Machine.Along (step starMatchers evnt) (Right starMatchers evnt fun _ _ => false) .init
      [.bind "-".toList "rehash".toList ['a'], .bind "-".toList "rehash".toList ['b'],
        .bind "-".toList "rehash".toList ['c'], .unbind "rehash".toList ['a'], .collect false,
        .dispatch (.plain "rehash".toList .plain ⟨.bindExecuted, false⟩)]) ∧
    ¬ Machine.Along (step starMatchers ⟨.matchMode, true, true, fun _ => rfl⟩)
      (Right starMatchers ⟨.matchMode, true, true, fun _ => rfl⟩ fun _ _ => false) .init
      [.bind "-".toList ['*'] ['a'],
        .dispatch (.plain "#lamest +o".toList .plain ⟨.bindExecuted, false⟩)] := by
  refine ⟨?_, ?_, ?_⟩
  · decide +kernel
  · decide +kernel
  · decide +kernel

end Eggdrop.Binds
