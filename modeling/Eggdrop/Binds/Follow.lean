import Eggdrop.Binds.Bound

/-!
# Follow — the table follows the list of binds

What is looked for in a table is the commands of one mask, or in a stackable table the commands of
the masks that match a text.  `Inv` says that both are found in the order in which they were bound.

* `Inv.bind`, `Inv.unbind`: binding and unbinding keep it.
* `Inv.garbageCollect`: so does a collection that swaps no two commands that are looked for together.
* `Inv.moveToFront`: and what a dispatch does to the masks of a table that is not stackable.
-/

namespace Eggdrop.Binds

open List Users

variable {m : Matchers} {k : Kind} {tl : BindList} {bound : List Bound} {cmd proc flags : CStr}
  {a : ℕ} {tm : BindMask} {pre post : List BindMask} {p : CStr → Bool}

/-- What may be looked for. -/
inductive Test (m : Matchers) (k : Kind) : (CStr → Bool) → Prop
  | fold (f : CStr) : Test m k fun mask => decide (istrFold mask = f)
  | text (h : k.bindStackable = true) (text : CStr) : Test m k (checkBindMatch m k text)

/-- Masks that are one for the hash table and match the same texts. -/
def Alike (m : Matchers) (k : Kind) (a b : CStr) : Prop :=
  istrFold a = istrFold b ∧ ∀ text, checkBindMatch m k text a = checkBindMatch m k text b

theorem Alike.refl (a : CStr) : Alike m k a a := ⟨rfl, fun _ => rfl⟩

theorem Test.congr (hp : Test m k p) {a b : CStr} (h : Alike m k a b) : p a = p b := by
  cases hp with
  | fold f => exact decide_eq_decide.2 (by rw [h.1])
  | text _ text => exact h.2 text

/-- What is looked for is found as it was bound. -/
structure Inv (m : Matchers) (k : Kind) (tl : BindList) (bound : List Bound) : Prop where
  shape : Shape tl
  alike : ∀ b ∈ bound, ∃ tm ∈ tl.masks, Alike m k tm.mask b.mask
  single : k.htStackable = false → (bound.map fun b => istrFold b.mask).Nodup
  same : ∀ p, Test m k p → ((layout tl.masks).filter (p ·.mask)).map Bound.key =
    (bound.filter (p ·.mask)).map Bound.key

namespace Inv

variable (h : Inv m k tl bound)

include h

theorem test_entry (he : Entry tl cmd a pre tm post) (hp : Test m k p) :
    (∀ b ∈ layout tl.masks, b.isFor cmd = true → p b.mask = p tm.mask) ∧
      ∀ b ∈ bound, b.isFor cmd = true → p b.mask = p tm.mask := by
  have hone : ∀ x ∈ tl.masks, istrFold x.mask = istrFold cmd → x = tm := by
    intro x hx hfold
    rw [he.masks] at hx
    rcases mem_append.1 hx with hx | hx
    · exact absurd hfold (he.others x (mem_append_left _ hx)).2
    · rcases mem_cons.1 hx with rfl | hx
      · rfl
      · exact absurd hfold (he.others x (mem_append_right _ hx)).2
  refine ⟨fun b hb hfor => ?_, fun b hb hfor => ?_⟩
  · obtain ⟨x, hx, hbx⟩ := mem_layout.1 hb
    rw [mem_bound hbx, hone x hx]
    rw [← mem_bound hbx]
    exact of_decide_eq_true hfor
  · obtain ⟨x, hx, hal⟩ := h.alike b hb
    have hxt : x = tm := hone x hx (hal.1.trans (of_decide_eq_true hfor))
    rw [← hxt]
    exact (hp.congr hal).symm

theorem filter_isFor (he : Entry tl cmd a pre tm post) :
    (bound.filter (·.isFor cmd)).map Bound.key = tm.bound.map Bound.key := by
  rw [← he.filter_isFor]
  exact (h.same _ (.fold (istrFold cmd))).symm

theorem any_eq (he : Entry tl cmd a pre tm post) (r : CStr → Bool) :
    bound.any (fun b => b.isFor cmd && r b.proc) = tm.cmds.any fun tc => tc.live && r tc.funcName := by
  have hkey : ∀ l : List Bound, l.any (fun b => r b.proc) = (l.map Bound.key).any fun x => r x.2.1 := by
    intro l
    rw [any_map]
    rfl
  have hbound : tm.bound.any (fun b => r b.proc) =
      tm.cmds.any fun tc => tc.live && r tc.funcName := by
    rw [BindMask.bound, any_map, any_filter]
    rfl
  rw [← any_filter, hkey, h.filter_isFor he, ← hkey, hbound]

theorem not_isFor (hnone : tl.maskHt (istrFold cmd) = none) : ∀ b ∈ bound, b.isFor cmd = false := by
  intro b hb
  obtain ⟨x, hx, hal⟩ := h.alike b hb
  refine decide_eq_false fun hfold => ?_
  have := (h.shape.table (istrFold cmd) x.addr).2 ⟨x, hx, rfl, hal.1.trans hfold⟩
  rw [hnone] at this
  cases this

theorem edit (he : Entry tl cmd a pre tm post) {r : CStr → Bool} {f : Cmd → Cmd}
    {g : Bound → List Bound} {j : CStr × CStr × FlagRecord → List (CStr × CStr × FlagRecord)}
    (hf : ∀ tc : Cmd, tc.live = true →
      ([f tc].filter Cmd.live).map (Cmd.toBound tm.mask) = g (tc.toBound tm.mask))
    (hg : ∀ b, (g b).map Bound.key = j b.key)
    (hmask : ∀ b, ((g b).map Bound.mask).Sublist [b.mask]) :
    Inv m k (tl.updateMask a (ListEdit.modifyFirst (fun tc => tc.live && r tc.funcName) f))
      (ListEdit.editFirst (fun b => b.isFor cmd && r b.proc) g bound) := by
  have hgm : ∀ b, ∀ y ∈ g b, y.mask = b.mask := fun b y hy => by
    simpa using (hmask b).subset (mem_map_of_mem hy)
  have hlayout : layout (tl.updateMask a
      (ListEdit.modifyFirst (fun tc => tc.live && r tc.funcName) f)).masks =
      ListEdit.editFirst (fun b => b.isFor cmd && r b.proc) g (layout tl.masks) := by
    have hpre := he.not_isFor (subset_append_left pre post)
    have hpost := he.not_isFor (subset_append_right pre post)
    have hmid : ∀ b ∈ tm.bound, (b.isFor cmd && r b.proc) = r b.proc := fun b hb => by
      rw [Bound.isFor, mem_bound hb, decide_eq_true he.fold, Bool.true_and]
    rw [he.layout_eq, ListEdit.editFirst_append_right fun b hb => by rw [hpost b hb, Bool.false_and],
      ListEdit.editFirst_append_of_neg fun b hb => by rw [hpre b hb, Bool.false_and],
      ListEdit.editFirst_congr hmid, ← bound_modifyFirst tm hf, he.updateMask_masks, layout,
      flatMap_append, flatMap_cons, append_assoc]
    rfl
  refine ⟨h.shape.updateMask a _, fun b hb => ?_, fun hht => ?_, fun p hp => ?_⟩
  · -- a bind that is edited keeps its mask
    have hold : ∃ c ∈ bound, c.mask = b.mask := by
      rcases ListEdit.mem_editFirst hb with hb | ⟨c, hc, -, hbc⟩
      · exact ⟨b, hb, rfl⟩
      · exact ⟨c, hc, (hgm c b hbc).symm⟩
    obtain ⟨c, hc, hcb⟩ := hold
    obtain ⟨x, hx, hal⟩ := h.alike c hc
    obtain ⟨y, hy, hyx⟩ := exists_mem_updateMask hx a
      (ListEdit.modifyFirst (fun tc => tc.live && r tc.funcName) f)
    rw [hcb, ← hyx] at hal
    exact ⟨y, hy, hal⟩
  · have hsub : ∀ b, ((g b).map fun b => istrFold b.mask).Sublist [istrFold b.mask] := by
      intro b
      simpa only [map_map, map_cons, map_nil, Function.comp_def] using (hmask b).map istrFold
    exact (h.single hht).sublist (ListEdit.map_editFirst_sublist hsub bound)
  · obtain ⟨hl, hb⟩ := h.test_entry he hp
    have hkey : ∀ l : List Bound,
        (ListEdit.editFirst (fun b => b.isFor cmd && r b.proc) g l).map Bound.key =
          ListEdit.editFirst (fun x : CStr × CStr × FlagRecord =>
            decide (x.1 = istrFold cmd) && r x.2.1) j (l.map Bound.key) :=
      ListEdit.map_editFirst (fun _ => rfl) hg
    rw [hlayout]
    by_cases hpt : p tm.mask
    · have hpass : ∀ b : Bound, p b.mask = p tm.mask → p b.mask = true ∧ ∀ y ∈ g b, p y.mask = true :=
        fun b hbt => ⟨by rw [hbt, hpt], fun y hy => by rw [hgm b y hy, hbt, hpt]⟩
      rw [ListEdit.filter_editFirst_of_pos fun b hbm hq =>
          hpass b (hl b hbm (Bool.and_eq_true_iff.1 hq).1),
        ListEdit.filter_editFirst_of_pos fun b hbm hq =>
          hpass b (hb b hbm (Bool.and_eq_true_iff.1 hq).1), hkey, hkey, h.same p hp]
    · have hpt' : p tm.mask = false := Bool.eq_false_iff.2 hpt
      have hmiss : ∀ b : Bound, p b.mask = p tm.mask →
          p b.mask = false ∧ ∀ y ∈ g b, p y.mask = false :=
        fun b hbt => ⟨by rw [hbt, hpt'], fun y hy => by rw [hgm b y hy, hbt, hpt']⟩
      rw [ListEdit.filter_editFirst_of_neg fun b hbm hq =>
          hmiss b (hl b hbm (Bool.and_eq_true_iff.1 hq).1),
        ListEdit.filter_editFirst_of_neg fun b hbm hq =>
          hmiss b (hb b hbm (Bool.and_eq_true_iff.1 hq).1), h.same p hp]

theorem push (he : Entry tl cmd a pre tm post) (hal : Alike m k tm.mask cmd)
    (hsingle : k.htStackable = false → ∀ b ∈ bound, b.isFor cmd = false)
    (hlast : k.bindStackable = true → ∀ x ∈ post, x.cmds.any Cmd.live = true → ∀ text,
      checkBindMatch m k text tm.mask = true → checkBindMatch m k text x.mask = false)
    (flags : FlagRecord) :
    Inv m k (tl.updateMask a (· ++ [⟨proc, flags, false⟩])) (bound ++ [⟨cmd, proc, flags⟩]) := by
  have hnew : BindMask.bound { tm with cmds := tm.cmds ++ [⟨proc, flags, false⟩] } =
      tm.bound ++ [⟨tm.mask, proc, flags⟩] := by
    rw [BindMask.bound, filter_append, map_append]
    rfl
  refine ⟨h.shape.updateMask a _, fun b hb => ?_, fun hht => ?_, fun p hp => ?_⟩
  · rcases mem_append.1 hb with hb | hb
    · obtain ⟨x, hx, hxb⟩ := h.alike b hb
      obtain ⟨y, hy, hyx⟩ := exists_mem_updateMask hx a (· ++ [⟨proc, flags, false⟩])
      exact ⟨y, hy, hyx ▸ hxb⟩
    · obtain rfl := mem_singleton.1 hb
      refine ⟨{ tm with cmds := tm.cmds ++ [⟨proc, flags, false⟩] }, ?_, hal⟩
      rw [he.updateMask_masks]
      exact mem_append_right _ mem_cons_self
  · rw [map_append, nodup_append]
    refine ⟨h.single hht, nodup_singleton _, ?_⟩
    intro f hf f' hf'
    obtain ⟨b, hb, rfl⟩ := mem_map.1 hf
    obtain rfl := mem_singleton.1 hf'
    exact of_decide_eq_false (hsingle hht b hb)
  · have hcmd : p cmd = p tm.mask := (hp.congr hal).symm
    have hsame := h.same p hp
    rw [he.layout_eq, filter_append, filter_append, map_append, map_append] at hsame
    rw [(he.updateMask _).layout_eq, hnew, filter_append, filter_append, filter_append, filter_append,
      map_append, map_append, map_append, map_append, ← hsame]
    by_cases hpt : p tm.mask
    · -- nothing behind the new command is looked for with it
      have hpost : (layout post).filter (p ·.mask) = [] := by
        rw [filter_eq_nil_iff]
        intro b hb
        obtain ⟨x, hx, hbx⟩ := mem_layout.1 hb
        rw [mem_bound hbx, Bool.not_eq_true]
        cases hp with
        | fold f =>
          refine decide_eq_false fun hxf => (he.others x (mem_append_right _ hx)).2 ?_
          rw [hxf, ← he.fold]
          exact (of_decide_eq_true hpt).symm
        | text hstack text =>
          obtain ⟨tc, htc, -⟩ := mem_map.1 hbx
          exact hlast hstack x hx (any_eq_true.2 ⟨tc, mem_of_mem_filter htc, of_mem_filter htc⟩) text
            hpt
      have hkey : Bound.key ⟨tm.mask, proc, flags⟩ = Bound.key ⟨cmd, proc, flags⟩ := by
        rw [Bound.key, Bound.key, he.fold]
      rw [hpost, filter_cons_of_pos (p := fun b : Bound => p b.mask) hpt,
        filter_cons_of_pos (p := fun b : Bound => p b.mask) (hcmd.trans hpt), map_cons, map_cons, hkey]
      simp only [map_nil, append_nil, filter_nil, append_assoc]
    · rw [filter_cons_of_neg (p := fun b : Bound => p b.mask) hpt,
        filter_cons_of_neg (p := fun b : Bound => p b.mask) (by rw [hcmd]; exact hpt)]
      simp only [map_nil, append_nil, filter_nil, append_assoc]

theorem findOrAddMask (cmd : CStr) :
    ∃ a pre tm post, (tl.findOrAddMask cmd).2 = a ∧ Inv m k (tl.findOrAddMask cmd).1 bound ∧
      Entry (tl.findOrAddMask cmd).1 cmd a pre tm post ∧
      ((tl.findOrAddMask cmd).1.masks = tl.masks ∨ (tm.mask = cmd ∧ post = [])) := by
  cases hht : tl.maskHt (istrFold cmd) with
  | some a =>
    obtain ⟨pre, tm, post, he⟩ := h.shape.entry hht
    have hfind : tl.findOrAddMask cmd = (tl, a) := by rw [BindList.findOrAddMask, hht]
    rw [hfind]
    exact ⟨a, pre, tm, post, rfl, h, he, .inl rfl⟩
  | none =>
    have hnew : ∀ x ∈ tl.masks, istrFold x.mask ≠ istrFold cmd := by
      intro x hx hfold
      have := (h.shape.table (istrFold cmd) x.addr).2 ⟨x, hx, rfl, hfold⟩
      rw [hht] at this
      cases this
    have hfind : tl.findOrAddMask cmd = ({ tl with
        masks := tl.masks ++ [⟨tl.next, cmd, []⟩]
        maskHt := Function.update tl.maskHt (istrFold cmd) (some tl.next)
        next := tl.next + 1 }, tl.next) := by rw [BindList.findOrAddMask, hht]
    rw [hfind]
    have hlayout : layout (tl.masks ++ [⟨tl.next, cmd, []⟩]) = layout tl.masks := by
      rw [layout, flatMap_append]
      exact append_nil _
    refine ⟨tl.next, tl.masks, ⟨tl.next, cmd, []⟩, [], rfl, ⟨⟨?_, ?_, fun x hx => ?_, fun f b => ?_⟩,
      fun b hb => ?_, h.single, fun p hp => ?_⟩, ⟨rfl, rfl, rfl, fun x hx => ?_⟩, .inr ⟨rfl, rfl⟩⟩
    · rw [map_append, nodup_append]
      refine ⟨h.shape.folds, nodup_singleton _, ?_⟩
      intro f hf f' hf'
      obtain ⟨x, hx, rfl⟩ := mem_map.1 hf
      obtain rfl := mem_singleton.1 hf'
      exact hnew x hx
    · rw [map_append, nodup_append]
      refine ⟨h.shape.addrs, nodup_singleton _, ?_⟩
      intro b hb b' hb'
      obtain ⟨x, hx, rfl⟩ := mem_map.1 hb
      obtain rfl := mem_singleton.1 hb'
      exact (h.shape.young x hx).ne
    · rcases mem_append.1 hx with hx | hx
      · exact (h.shape.young x hx).trans tl.next.lt_succ_self
      · obtain rfl := mem_singleton.1 hx
        exact tl.next.lt_succ_self
    · dsimp only
      by_cases hf : f = istrFold cmd
      · rw [hf, Function.update_self]
        refine ⟨fun hb => ?_, ?_⟩
        · obtain rfl := Option.some.inj hb
          exact ⟨_, mem_append_right _ (mem_singleton_self _), rfl, rfl⟩
        · rintro ⟨x, hx, rfl, hxf⟩
          rcases mem_append.1 hx with hx | hx
          · exact absurd hxf (hnew x hx)
          · obtain rfl := mem_singleton.1 hx
            rfl
      · rw [Function.update_of_ne hf, h.shape.table]
        constructor
        · rintro ⟨x, hx, hxb⟩
          exact ⟨x, mem_append_left _ hx, hxb⟩
        · rintro ⟨x, hx, hxb, hxf⟩
          rcases mem_append.1 hx with hx | hx
          · exact ⟨x, hx, hxb, hxf⟩
          · obtain rfl := mem_singleton.1 hx
            exact absurd hxf.symm hf
    · obtain ⟨x, hx, hxb⟩ := h.alike b hb
      exact ⟨x, mem_append_left _ hx, hxb⟩
    · rw [hlayout]
      exact h.same p hp
    · rw [append_nil] at hx
      exact ⟨(h.shape.young x hx).ne, hnew x hx⟩

theorem setDirty (dirty : Bool) : Inv m k { tl with dirty := dirty } bound :=
  ⟨⟨h.shape.folds, h.shape.addrs, h.shape.young, h.shape.table⟩, h.alike, h.single, h.same⟩

end Inv

/-- A mask that is there already for the text matches what it matches; and where a procedure comes
in behind other stacked ones, no later mask with commands matches any of it. -/
def BindOk (m : Matchers) (k : Kind) (tl : BindList) (cmd proc : CStr) : Prop :=
  ∀ pre tm post, tl.masks = pre ++ tm :: post → istrFold tm.mask = istrFold cmd →
    Alike m k tm.mask cmd ∧
      (k.bindStackable = true → tm.cmds.any (·.isProc proc) = false →
        ∀ x ∈ post, x.cmds.any Cmd.live = true → ∀ text,
          checkBindMatch m k text tm.mask = true → checkBindMatch m k text x.mask = false)

namespace Inv

variable (h : Inv m k tl bound)

include h

theorem bind (hok : BindOk m k tl cmd proc) (flags : CStr) :
    Inv m k (tl.bindBindEntry k flags cmd proc) (bindBound k flags cmd proc bound) := by
  obtain ⟨a, pre, tm, post, ha, h₁, he, hold⟩ := h.findOrAddMask cmd
  have hal : Alike m k tm.mask cmd := by
    rcases hold with hmasks | ⟨rfl, -⟩
    · exact (hok pre tm post (hmasks ▸ he.masks) he.fold).1
    · exact .refl _
  have hlast : tm.cmds.any (·.isProc proc) = false → k.bindStackable = true → ∀ x ∈ post,
      x.cmds.any Cmd.live = true → ∀ text,
        checkBindMatch m k text tm.mask = true → checkBindMatch m k text x.mask = false := by
    intro hany hstack
    rcases hold with hmasks | ⟨-, rfl⟩
    · exact (hok pre tm post (hmasks ▸ he.masks) he.fold).2 hstack hany
    · exact nofun
  have hany : bound.any (·.isBind cmd proc) = tm.cmds.any (·.isProc proc) :=
    h₁.any_eq he fun q => decide (q = proc)
  rw [BindList.bindBindEntry, bindBound, hany]
  dsimp only
  rw [ha, he.cmdsAt_eq]
  by_cases hproc : tm.cmds.any (·.isProc proc) = true
  · have hset : ∀ tc : Cmd, tc.live = true →
        ([{ tc with flags := bindFlags flags }].filter Cmd.live).map (Cmd.toBound tm.mask) =
          [{ tc.toBound tm.mask with flags := bindFlags flags }] := by
      intro tc hlive
      have hlive' : Cmd.live { tc with flags := bindFlags flags } = true := hlive
      rw [filter_cons_of_pos hlive']
      rfl
    rw [if_pos hproc, if_pos hproc]
    exact h₁.edit he (r := fun q => decide (q = proc))
      (j := fun x => [(x.1, x.2.1, bindFlags flags)])
      hset (fun _ => rfl) fun _ => Sublist.refl _
  · rw [if_neg hproc, if_neg hproc]
    have hlast' := hlast (Bool.eq_false_iff.2 hproc)
    by_cases hht : k.htStackable = true
    · rw [if_pos hht, if_pos hht]
      have hfree : k.htStackable = false → ∀ b ∈ bound, b.isFor cmd = false := fun hn => by
        rw [hht] at hn
        cases hn
      exact (h₁.push he hal hfree hlast' _).setDirty true
    · -- the procedure that the mask had is deleted first
      have hdel : Inv m k ((tl.findOrAddMask cmd).1.updateMask a
          (ListEdit.modifyFirst Cmd.live Cmd.delete))
          (ListEdit.editFirst (·.isFor cmd) (fun _ => []) bound) := by
        have hedit := h₁.edit he (r := fun _ => true) (f := Cmd.delete) (g := fun _ => [])
          (j := fun _ => []) (fun _ _ => rfl) (fun _ => rfl) fun _ => nil_sublist _
        simpa only [Bool.and_true] using hedit
      have hfree : k.htStackable = false → ∀ b ∈ ListEdit.editFirst (·.isFor cmd) (fun _ => []) bound,
          b.isFor cmd = false := by
        intro hn b hb
        rw [ListEdit.editFirst_nil] at hb
        refine Bool.eq_false_iff.2 (ListEdit.not_of_mem_eraseP ?_ b hb)
        refine (pairwise_map.1 (h.single hn)).imp fun {c d} hne hcd => hne ?_
        exact (of_decide_eq_true hcd.1).trans (of_decide_eq_true hcd.2).symm
      rw [if_neg hht, if_neg hht]
      exact (hdel.push (he.updateMask _) hal hfree hlast' _).setDirty true

theorem unbind (cmd proc : CStr) :
    Inv m k (tl.unbindBindEntry cmd proc) (unbindBound cmd proc bound) := by
  rw [BindList.unbindBindEntry, unbindBound]
  cases hht : tl.maskHt (istrFold cmd) with
  | none =>
    have hnone : ∀ b ∈ bound, b.isUnbind cmd proc = false := fun b hb => by
      rw [Bound.isUnbind, h.not_isFor hht b hb, Bool.false_and]
    rw [ListEdit.editFirst_eq_self hnone]
    exact h
  | some a =>
    obtain ⟨pre, tm, post, he⟩ := h.shape.entry hht
    have hany : bound.any (·.isUnbind cmd proc) = tm.cmds.any (·.isProcNoCase proc) :=
      h.any_eq he fun q => strcaseEq q proc
    dsimp only
    rw [he.cmdsAt_eq, ← hany]
    by_cases hproc : bound.any (·.isUnbind cmd proc) = true
    · rw [if_pos hproc]
      exact (h.edit he (r := fun q => strcaseEq q proc) (f := Cmd.delete) (g := fun _ => [])
        (j := fun _ => []) (fun _ _ => rfl) (fun _ => rfl) fun _ => nil_sublist _).setDirty true
    · rw [if_neg hproc, ListEdit.editFirst_eq_self fun b hb => by
        simpa using any_eq_false.1 (Bool.eq_false_iff.2 hproc) b hb]
      exact h

end Inv

/-! ### The masks are moved -/

theorem Shape.length_filter_fold (h : Shape tl) (f : CStr) :
    (tl.masks.filter fun tm => decide (istrFold tm.mask = f)).length ≤ 1 :=
  ListEdit.length_filter_key_le_one h.folds f

theorem BindMask.bound_sweep (h : SwapRemove.Calm Cmd.deleted Cmd.live tm.cmds) :
    tm.sweep.bound = tm.bound := by
  have hlive : (fun tc : Cmd => !tc.deleted && tc.live) = Cmd.live := by
    funext tc
    exact Bool.and_self _
  show (filter Cmd.live (SwapRemove.sweep Cmd.deleted tm.cmds)).map _ = _
  rw [SwapRemove.filter_sweep h, hlive]
  rfl

theorem BindMask.isEmpty_sweep (tm : BindMask) : tm.sweep.cmds.isEmpty = !tm.cmds.any Cmd.live := by
  rw [Bool.eq_iff_iff, List.isEmpty_iff, Bool.not_eq_true', any_eq_false]
  refine ⟨fun hnil tc htc hlive => ?_, fun hnone => ?_⟩
  · have hmem : tc ∈ tm.sweep.cmds := SwapRemove.mem_sweep.2 ⟨htc, by simpa [Cmd.live] using hlive⟩
    rw [hnil] at hmem
    cases hmem
  · rw [eq_nil_iff_forall_not_mem]
    intro tc htc
    obtain ⟨hm, hdel⟩ := SwapRemove.mem_sweep.1 htc
    exact hnone tc hm (by rw [Cmd.live, hdel]; rfl)

theorem layout_filter_isEmpty (q : BindMask → Bool) (masks : List BindMask) :
    layout (masks.filter fun tm => !tm.cmds.isEmpty && q tm) = layout (masks.filter q) := by
  induction masks with
  | nil => rfl
  | cons tm masks ih =>
    by_cases hq : q tm
    · rw [filter_cons_of_pos hq]
      by_cases he : tm.cmds.isEmpty
      · have hnil : tm.bound = [] := by rw [BindMask.bound, List.isEmpty_iff.1 he]; rfl
        rw [filter_cons_of_neg (by simp [he]), ih, layout, layout, flatMap_cons, hnil, nil_append]
      · rw [filter_cons_of_pos (by simp [he, hq]), layout, flatMap_cons, layout, flatMap_cons]
        exact congrArg (tm.bound ++ ·) ih
    · rw [filter_cons_of_neg hq, filter_cons_of_neg (by simp [hq]), ih]

theorem foldr_update_none (ht : CStr → Option ℕ) (masks : List BindMask) (f : CStr) (a : ℕ) :
    masks.foldr (fun tm ht => Function.update ht (istrFold tm.mask) none) ht f = some a ↔
      ht f = some a ∧ ∀ tm ∈ masks, istrFold tm.mask ≠ f := by
  induction masks with
  | nil => simp
  | cons tm masks ih =>
    rw [foldr_cons, forall_mem_cons]
    by_cases hf : f = istrFold tm.mask
    · rw [hf, Function.update_self]
      exact ⟨nofun, fun h => absurd rfl h.2.1⟩
    · rw [Function.update_of_ne hf, ih]
      exact ⟨fun h => ⟨h.1, fun he => hf he.symm, h.2⟩, fun h => ⟨h.1, h.2.2⟩⟩

/-- Behind a deleted command there is at most one that is live, and in a stackable table at most one
mask for a text behind a mask that goes. -/
def CollectOk (m : Matchers) (k : Kind) (tl : BindList) (other : Bool) : Prop :=
  (tl.dirty || other) = true →
    (∀ tm ∈ tl.masks, SwapRemove.Calm Cmd.deleted Cmd.live tm.cmds) ∧
      (k.bindStackable = true → ∀ text, SwapRemove.Calm (fun tm => !tm.cmds.any Cmd.live)
        (fun tm => checkBindMatch m k text tm.mask) tl.masks)

namespace Inv

variable (h : Inv m k tl bound)

include h

theorem exists_live {b : Bound} (hb : b ∈ bound) :
    ∃ tm ∈ tl.masks, Alike m k tm.mask b.mask ∧ tm.cmds.any Cmd.live = true := by
  obtain ⟨x, hx, hal⟩ := h.alike b hb
  have hkey : b.key ∈ (bound.filter fun c => decide (istrFold c.mask = istrFold b.mask)).map
      Bound.key := mem_map_of_mem (mem_filter.2 ⟨hb, decide_eq_true rfl⟩)
  rw [← h.same _ (.fold (istrFold b.mask))] at hkey
  obtain ⟨c, hc, hcb⟩ := mem_map.1 hkey
  obtain ⟨y, hy, hcy⟩ := mem_layout.1 (mem_filter.1 hc).1
  have hyx : y = x := by
    refine inj_on_of_nodup_map h.shape.folds hy hx ?_
    have hfold : istrFold c.mask = istrFold b.mask := congrArg Prod.fst hcb
    rw [hal.1, ← hfold, mem_bound hcy]
  obtain ⟨tc, htc, -⟩ := mem_map.1 hcy
  exact ⟨x, hx, hal, any_eq_true.2 ⟨tc, hyx ▸ mem_of_mem_filter htc, of_mem_filter htc⟩⟩

theorem garbageCollect {other : Bool} (hok : CollectOk m k tl other) :
    Inv m k (tl.garbageCollect other) bound := by
  by_cases hdirty : (tl.dirty || other) = true
  swap
  · rw [Bool.not_eq_true, Bool.or_eq_false_iff] at hdirty
    rw [BindList.garbageCollect, hdirty.1, hdirty.2]
    exact h
  obtain ⟨hcmds, hmasks⟩ := hok hdirty
  have hgo : ¬ (!tl.dirty && !other) = true := by
    rw [← Bool.not_or, hdirty]
    exact Bool.false_ne_true
  rw [BindList.garbageCollect, if_neg hgo]
  have hperm := SwapRemove.sweep_perm (fun tm : BindMask => tm.cmds.isEmpty)
    (tl.masks.map BindMask.sweep)
  have hsub : ∀ {β : Type} (g : BindMask → β), (∀ tm : BindMask, g tm.sweep = g tm) →
      (tl.masks.map g).Nodup →
      ((SwapRemove.sweep (·.cmds.isEmpty) (tl.masks.map BindMask.sweep)).map g).Nodup := by
    intro β g hg hnd
    rw [(hperm.map g).nodup_iff]
    refine Nodup.sublist (filter_sublist.map g) ?_
    rw [map_map]
    exact (map_congr_left fun tm _ => hg tm) ▸ hnd
  have hleft : ∀ x, x ∈ SwapRemove.sweep (·.cmds.isEmpty) (tl.masks.map BindMask.sweep) ↔
      ∃ tm ∈ tl.masks, tm.sweep = x ∧ tm.cmds.any Cmd.live = true := by
    intro x
    rw [SwapRemove.mem_sweep, mem_map]
    refine ⟨?_, ?_⟩
    · rintro ⟨⟨tm, htm, rfl⟩, hne⟩
      rw [BindMask.isEmpty_sweep, Bool.not_eq_false'] at hne
      exact ⟨tm, htm, rfl, hne⟩
    · rintro ⟨tm, htm, rfl, hne⟩
      exact ⟨⟨tm, htm, rfl⟩, by rw [BindMask.isEmpty_sweep, hne]; rfl⟩
  refine ⟨⟨hsub _ (fun _ => rfl) h.shape.folds, hsub _ (fun _ => rfl) h.shape.addrs, fun x hx => ?_,
    fun f a => ?_⟩, fun b hb => ?_, h.single, fun p hp => ?_⟩
  · obtain ⟨tm, htm, rfl, -⟩ := (hleft x).1 hx
    exact h.shape.young tm htm
  · dsimp only
    rw [foldr_update_none, h.shape.table]
    refine ⟨?_, ?_⟩
    · rintro ⟨⟨tm, htm, hta, htf⟩, hgone⟩
      refine ⟨tm.sweep, (hleft _).2 ⟨tm, htm, rfl, ?_⟩, hta, htf⟩
      by_contra hlive
      refine hgone tm.sweep (mem_filter.2 ⟨mem_map_of_mem htm, ?_⟩) htf
      rw [BindMask.isEmpty_sweep, Bool.eq_false_iff.2 hlive]
      rfl
    · rintro ⟨x, hx, hxa, hxf⟩
      obtain ⟨tm, htm, rfl, hlive⟩ := (hleft x).1 hx
      refine ⟨⟨tm, htm, hxa, hxf⟩, fun y hy hyf => ?_⟩
      obtain ⟨hy, hempty⟩ := mem_filter.1 hy
      obtain ⟨z, hz, rfl⟩ := mem_map.1 hy
      obtain rfl : z = tm := inj_on_of_nodup_map h.shape.folds hz htm (hyf.trans hxf.symm)
      rw [BindMask.isEmpty_sweep, hlive] at hempty
      cases hempty
  · obtain ⟨tm, htm, hal, hlive⟩ := h.exists_live hb
    exact ⟨tm.sweep, (hleft _).2 ⟨tm, htm, rfl, hlive⟩, hal⟩
  · have hcalm : SwapRemove.Calm (·.cmds.isEmpty) (fun tm : BindMask => p tm.mask)
        (tl.masks.map BindMask.sweep) := by
      rw [SwapRemove.calm_map]
      have hdead : ((fun tm : BindMask => tm.cmds.isEmpty) ∘ BindMask.sweep) =
          fun tm => !tm.cmds.any Cmd.live := funext BindMask.isEmpty_sweep
      rw [hdead]
      cases hp with
      | fold f =>
        refine SwapRemove.Calm.of_all (Nat.le_trans ?_ (h.shape.length_filter_fold f))
        rw [← filter_filter]
        exact length_filter_le _ _
      | text hstack text => exact hmasks hstack text
    have hlayout : layout (tl.masks.map BindMask.sweep) = layout tl.masks := by
      rw [layout, layout, flatMap_map]
      exact flatMap_congr fun tm htm => BindMask.bound_sweep (hcmds tm htm)
    rw [filter_layout, SwapRemove.filter_sweep hcalm, layout_filter_isEmpty, ← filter_layout, hlayout]
    exact h.same p hp

theorem moveToFront (hstack : k.bindStackable = false) (i : ℕ) :
    Inv m k (tl.moveToFront i) bound := by
  rw [BindList.moveToFront]
  cases hi : tl.masks[i]? with
  | none => exact h
  | some tm =>
    have hperm : (tm :: tl.masks.eraseIdx i).Perm tl.masks := by
      obtain ⟨hlt, rfl⟩ := List.getElem?_eq_some_iff.1 hi
      exact getElem_cons_eraseIdx_perm hlt
    refine ⟨⟨?_, ?_, fun x hx => h.shape.young x (hperm.subset hx), fun f a => ?_⟩, fun b hb => ?_,
      h.single, fun p hp => ?_⟩
    · exact (hperm.map _).nodup_iff.2 h.shape.folds
    · exact (hperm.map _).nodup_iff.2 h.shape.addrs
    · rw [h.shape.table]
      simp only [hperm.mem_iff]
    · obtain ⟨x, hx, hal⟩ := h.alike b hb
      exact ⟨x, hperm.mem_iff.2 hx, hal⟩
    · cases hp with
      | fold f =>
        have hsame := SwapRemove.eq_of_perm_of_length_le_one (hperm.filter _)
          (h.shape.length_filter_fold f)
        rw [filter_layout (fun mask => decide (istrFold mask = f)), hsame, ← filter_layout
          (fun mask => decide (istrFold mask = f))]
        exact h.same _ (.fold f)
      | text hst text =>
        rw [hstack] at hst
        cases hst

end Inv

end Eggdrop.Binds
