import Eggdrop.Binds.Tclhash

/-!
# Bound — the binds of a table, as they were made

`bindBound` and `unbindBound` say what is bound after a bind or an unbind, as a list in the order in
which it was bound, without masks, marks and collections.  `Inv` relates it to the table: what is
looked for, the commands of one mask or those for one text, is found in the order of the list.

* `Shape`: the vector of masks and the hash table fit together.
* `Inv.bind`, `Inv.unbind`, `Inv.garbageCollect`, `Inv.moveToFront`: when the steps keep `Inv`.
-/

namespace Eggdrop.Binds

open List Users

/-- A bind: the mask and the procedure as they were given. -/
structure Bound where
  mask : CStr
  proc : CStr
  flags : FlagRecord
deriving DecidableEq, Repr

namespace Bound

/-- Masks that the hash table folds alike are the same to a bind. -/
def isFor (cmd : CStr) (b : Bound) : Bool := istrFold b.mask = istrFold cmd

def isBind (cmd proc : CStr) (b : Bound) : Bool := b.isFor cmd && b.proc = proc

def isUnbind (cmd proc : CStr) (b : Bound) : Bool := b.isFor cmd && strcaseEq b.proc proc

/-- What the order of binds is about. -/
def key (b : Bound) : CStr × CStr × FlagRecord := (istrFold b.mask, b.proc, b.flags)

end Bound

/-- What is bound after a bind: a procedure that is bound already gets the flags and keeps its
place; where procedures are not stacked, the new one replaces that of the mask. -/
def bindBound (k : Kind) (flags cmd proc : CStr) (bound : List Bound) : List Bound :=
  if bound.any (·.isBind cmd proc) then
    ListEdit.editFirst (·.isBind cmd proc) (fun b => [{ b with flags := bindFlags flags }]) bound
  else
    (if k.htStackable then bound else ListEdit.editFirst (·.isFor cmd) (fun _ => []) bound) ++
      [⟨cmd, proc, bindFlags flags⟩]

def unbindBound (cmd proc : CStr) (bound : List Bound) : List Bound :=
  ListEdit.editFirst (·.isUnbind cmd proc) (fun _ => []) bound

/-! ### The commands of the masks -/

def Cmd.toBound (mask : CStr) (tc : Cmd) : Bound := ⟨mask, tc.funcName, tc.flags⟩

/-- The commands of a mask that are not deleted. -/
def BindMask.bound (tm : BindMask) : List Bound := (tm.cmds.filter Cmd.live).map (Cmd.toBound tm.mask)

/-- Those of all masks, in the order of the vectors. -/
def layout (masks : List BindMask) : List Bound := masks.flatMap BindMask.bound

variable {m : Matchers} {k : Kind} {tl : BindList} {bound : List Bound} {cmd proc flags : CStr}
  {a : ℕ} {tm : BindMask} {p : CStr → Bool}

theorem mem_bound {b : Bound} (h : b ∈ tm.bound) : b.mask = tm.mask := by
  obtain ⟨tc, -, rfl⟩ := mem_map.1 h
  rfl

theorem mem_layout {masks : List BindMask} {b : Bound} :
    b ∈ layout masks ↔ ∃ tm ∈ masks, b ∈ tm.bound := mem_flatMap

theorem filter_layout (p : CStr → Bool) (masks : List BindMask) :
    (layout masks).filter (p ·.mask) = layout (masks.filter (p ·.mask)) := by
  induction masks with
  | nil => rfl
  | cons tm masks ih =>
    rw [layout, flatMap_cons, filter_append]
    change _ ++ (layout masks).filter (p ·.mask) = _
    rw [ih]
    by_cases hp : p tm.mask
    · have hall : ∀ b ∈ tm.bound, p b.mask = true := fun b hb => by rw [mem_bound hb, hp]
      rw [filter_cons_of_pos (p := fun tm : BindMask => p tm.mask) hp, filter_eq_self.2 hall]
      rfl
    · have hnone : ∀ b ∈ tm.bound, ¬ p b.mask = true := fun b hb => by rw [mem_bound hb]; exact hp
      rw [filter_cons_of_neg (p := fun tm : BindMask => p tm.mask) hp, filter_eq_nil_iff.2 hnone]
      rfl

/-- A change of the first live command that meets `r`, in terms of what is bound. -/
theorem bound_modifyFirst {r : CStr → Bool} {f : Cmd → Cmd} {g : Bound → List Bound} (tm : BindMask)
    (hf : ∀ tc : Cmd, tc.live = true →
      ([f tc].filter Cmd.live).map (Cmd.toBound tm.mask) = g (tc.toBound tm.mask)) :
    BindMask.bound { tm with
      cmds := ListEdit.modifyFirst (fun tc => tc.live && r tc.funcName) f tm.cmds } =
      ListEdit.editFirst (r ·.proc) g tm.bound := by
  obtain ⟨addr, mask, cmds⟩ := tm
  simp only [BindMask.bound] at hf ⊢
  induction cmds with
  | nil => rfl
  | cons tc tcs ih =>
    rw [ListEdit.modifyFirst]
    by_cases hlive : tc.live
    · rw [filter_cons_of_pos hlive, map_cons, ListEdit.editFirst]
      by_cases hr : r tc.funcName
      · rw [if_pos (by rw [hlive, hr]; rfl), if_pos (show r (tc.toBound mask).proc from hr),
          ← hf tc hlive, ← singleton_append,
          filter_append, map_append]
      · rw [if_neg (by simp [hr]), if_neg (show ¬ r (tc.toBound mask).proc from hr),
          filter_cons_of_pos hlive, map_cons, ih]
    · rw [if_neg (by simp [hlive]), filter_cons_of_neg hlive, filter_cons_of_neg hlive, ih]

/-! ### The vector and the hash table -/

structure Shape (tl : BindList) : Prop where
  folds : (tl.masks.map fun tm => istrFold tm.mask).Nodup
  addrs : (tl.masks.map BindMask.addr).Nodup
  young : ∀ tm ∈ tl.masks, tm.addr < tl.next
  table : ∀ f a, tl.maskHt f = some a ↔ ∃ tm ∈ tl.masks, tm.addr = a ∧ istrFold tm.mask = f

/-- Where the mask for a text is in the vector. -/
structure Entry (tl : BindList) (cmd : CStr) (a : ℕ) (pre : List BindMask) (tm : BindMask)
    (post : List BindMask) : Prop where
  masks : tl.masks = pre ++ tm :: post
  addr : tm.addr = a
  fold : istrFold tm.mask = istrFold cmd
  others : ∀ x ∈ pre ++ post, x.addr ≠ a ∧ istrFold x.mask ≠ istrFold cmd

theorem Shape.entry (h : Shape tl) (ha : tl.maskHt (istrFold cmd) = some a) :
    ∃ pre tm post, Entry tl cmd a pre tm post := by
  obtain ⟨tm, htm, haddr, hfold⟩ := (h.table _ _).1 ha
  obtain ⟨pre, post, hmasks⟩ := append_of_mem htm
  refine ⟨pre, tm, post, hmasks, haddr, hfold, fun x hx => ?_⟩
  have haddrs := h.addrs
  have hfolds := h.folds
  rw [hmasks, map_append, map_cons, nodup_middle, nodup_cons, ← map_append] at haddrs hfolds
  refine ⟨fun hxa => ?_, fun hxf => ?_⟩
  · exact haddrs.1 (mem_map.2 ⟨x, hx, by rw [hxa, haddr]⟩)
  · exact hfolds.1 (mem_map.2 ⟨x, hx, by rw [hxf, hfold]⟩)

namespace Entry

variable {pre post : List BindMask} (h : Entry tl cmd a pre tm post)

include h

theorem cmdsAt_eq : tl.cmdsAt a = tm.cmds := by
  have hpre : pre.find? (·.addr = a) = none := by
    rw [find?_eq_none]
    intro x hx
    simpa using (h.others x (mem_append_left _ hx)).1
  rw [BindList.cmdsAt, h.masks, find?_append, hpre, Option.none_or, find?_cons_of_pos (by
    simpa using h.addr)]
  rfl

theorem updateMask_masks (f : List Cmd → List Cmd) :
    (tl.updateMask a f).masks = pre ++ { tm with cmds := f tm.cmds } :: post := by
  have hsame : ∀ l : List BindMask, (∀ x ∈ l, x.addr ≠ a) →
      l.map (fun x => if x.addr = a then { x with cmds := f x.cmds } else x) = l := by
    intro l hl
    refine (map_congr_left fun x hx => if_neg (hl x hx)).trans (map_id l)
  rw [BindList.updateMask, h.masks, map_append, map_cons, if_pos h.addr,
    hsame pre fun x hx => (h.others x (mem_append_left _ hx)).1,
    hsame post fun x hx => (h.others x (mem_append_right _ hx)).1]

theorem updateMask (f : List Cmd → List Cmd) :
    Entry (tl.updateMask a f) cmd a pre { tm with cmds := f tm.cmds } post :=
  ⟨h.updateMask_masks f, h.addr, h.fold, h.others⟩

theorem layout_eq : layout tl.masks = layout pre ++ tm.bound ++ layout post := by
  rw [h.masks, layout, flatMap_append, flatMap_cons, append_assoc]
  rfl

theorem not_isFor {masks : List BindMask} (hsub : masks ⊆ pre ++ post) :
    ∀ b ∈ layout masks, b.isFor cmd = false := by
  intro b hb
  obtain ⟨x, hx, hbx⟩ := mem_layout.1 hb
  rw [Bound.isFor, mem_bound hbx]
  exact decide_eq_false (h.others x (hsub hx)).2

theorem filter_isFor : (layout tl.masks).filter (·.isFor cmd) = tm.bound := by
  have hpre : (layout pre).filter (·.isFor cmd) = [] := filter_eq_nil_iff.2 fun b hb => by
    rw [h.not_isFor (subset_append_left _ _) b hb]
    exact Bool.false_ne_true
  have hpost : (layout post).filter (·.isFor cmd) = [] := filter_eq_nil_iff.2 fun b hb => by
    rw [h.not_isFor (subset_append_right _ _) b hb]
    exact Bool.false_ne_true
  have hmid : tm.bound.filter (·.isFor cmd) = tm.bound := filter_eq_self.2 fun b hb => by
    rw [Bound.isFor, mem_bound hb]
    exact decide_eq_true h.fold
  rw [h.layout_eq, filter_append, filter_append, hpre, hpost, hmid, nil_append, append_nil]

end Entry

theorem exists_mem_updateMask {x : BindMask} (hx : x ∈ tl.masks) (a : ℕ) (f : List Cmd → List Cmd) :
    ∃ y ∈ (tl.updateMask a f).masks, y.mask = x.mask := by
  refine ⟨_, mem_map_of_mem hx, ?_⟩
  by_cases ha : x.addr = a
  · rw [if_pos ha]
  · rw [if_neg ha]

theorem Shape.updateMask (h : Shape tl) (a : ℕ) (f : List Cmd → List Cmd) :
    Shape (tl.updateMask a f) := by
  have hkeep : ∀ {β : Type} (g : BindMask → β), (∀ x c, g { x with cmds := c } = g x) →
      (tl.updateMask a f).masks.map g = tl.masks.map g := by
    intro β g hg
    rw [BindList.updateMask, map_map]
    refine map_congr_left fun x _ => ?_
    by_cases hx : x.addr = a
    · simp only [Function.comp_apply, if_pos hx, hg]
    · simp only [Function.comp_apply, if_neg hx]
  have hmem : ∀ b f', (∃ x ∈ (tl.updateMask a f).masks, x.addr = b ∧ istrFold x.mask = f') ↔
      ∃ x ∈ tl.masks, x.addr = b ∧ istrFold x.mask = f' := by
    intro b f'
    have hp := hkeep (fun x => (x.addr, istrFold x.mask)) fun _ _ => rfl
    have hiff : ∀ l : List BindMask, (∃ x ∈ l, x.addr = b ∧ istrFold x.mask = f') ↔
        (b, f') ∈ l.map fun x => (x.addr, istrFold x.mask) := by
      intro l
      simp [mem_map]
    rw [hiff, hiff, hp]
  refine ⟨?_, ?_, fun x hx => ?_, fun f' b => (h.table f' b).trans (hmem b f').symm⟩
  · rw [hkeep (fun x => istrFold x.mask) fun _ _ => rfl]
    exact h.folds
  · rw [hkeep BindMask.addr fun _ _ => rfl]
    exact h.addrs
  · have hxm := mem_map_of_mem (f := BindMask.addr) hx
    rw [hkeep BindMask.addr fun _ _ => rfl] at hxm
    obtain ⟨y, hy, hyx⟩ := mem_map.1 hxm
    exact hyx ▸ h.young y hy

end Eggdrop.Binds
