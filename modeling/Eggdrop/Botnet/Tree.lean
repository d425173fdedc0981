import Mathlib.Data.List.TakeWhile
import Eggdrop.Lib.Run
import Eggdrop.Lib.Forest
import Eggdrop.Botnet.Tandem

/-!
# Tree — the list of bots is a tree

* `Base`: entries have distinct names, and the table finds them; every operation keeps it.
* `Inv`: the pointers of the list make it a tree as well; only a removal of a bot with others
  behind it can break this, and a bot with a name like ours.
* `unviaRec_spec`: `unvia` removes all that hangs from a bot and nothing older.
* `step_ok`: a safe step does not fault and keeps it.
-/

namespace Eggdrop.Tandem

/-! ### The invariant -/

def Uplink.entry? : Uplink → Option Nat
  | .bot id => some id
  | .me | .null => none

/-- The entries as nodes of a tree. -/
def pointers : Pointers Tand where
  id := (·.id)
  top t := t.uplink = .me
  parent t := t.uplink.entry?
  first := (·.via)

theorem parent_eq_some {t : Tand} {i : Nat} : pointers.parent t = some i ↔ t.uplink = .bot i := by
  show t.uplink.entry? = some i ↔ _
  cases t.uplink <;> simp [Uplink.entry?]

/-- A name that survives being sent to the other bots. -/
structure Sayable (name : CStr) : Prop where
  nonempty : name ≠ []
  word : ' ' ∉ name
  plain : name.any Botnet.badChar = false
  short : name.length ≤ handLen

instance (name : CStr) : Decidable (Sayable name) :=
  decidable_of_iff
    (name ≠ [] ∧ ' ' ∉ name ∧ name.any Botnet.badChar = false ∧ name.length ≤ handLen)
    ⟨fun ⟨h1, h2, h3, h4⟩ => ⟨h1, h2, h3, h4⟩, fun ⟨h1, h2, h3, h4⟩ => ⟨h1, h2, h3, h4⟩⟩

namespace Botnet

/-- What holds of the list and the table whatever is removed; the names are `ok`, and none is
taken for ours. -/
structure Base (ok : CStr → Prop) (s : Botnet) : Prop where
  young : ∀ t ∈ s.tandbot, t.id < s.fresh
  names : s.tandbot.Pairwise fun a b => rfcCaseEq a.bot b.bot = false
  synced : ∀ who, s.findbot who = (s.tandbot.find? fun t => rfcCaseEq who t.bot).map (·.id)
  foreign : ∀ t ∈ s.tandbot, rfcCaseEq t.bot s.botnetnick = false
  named : ∀ t ∈ s.tandbot, ok t.bot
  me : s.botnetnick ≠ [] ∧ ' ' ∉ s.botnetnick

structure Inv (ok : CStr → Prop) (s : Botnet) : Prop extends Base ok s where
  forest : pointers.Forest s.tandbot

variable {ok : CStr → Prop} {s s' s'' : Botnet} {who : CStr} {t u : Tand} {i : Nat}

theorem rfcFold_eq_iff {a b : CStr} : rfcFold a = rfcFold b ↔ rfcCaseEq a b = true :=
  rfcCaseEq_iff.symm

theorem findbot_congr {a b : CStr} (h : rfcCaseEq a b = true) : s.findbot a = s.findbot b := by
  rw [findbot, findbot, rfcFold_eq_iff.2 h]

namespace Base

theorem eq_of_name (h : Base ok s) (ht : t ∈ s.tandbot) (hu : u ∈ s.tandbot)
    (hname : rfcCaseEq t.bot u.bot = true) : t = u :=
  ListEdit.eq_of_pairwise (r := fun a b => rfcCaseEq a.bot b.bot)
    (fun a b => rfcCaseEq_comm a.bot b.bot) h.names ht hu hname

theorem findbot_eq_some (h : Base ok s) :
    s.findbot who = some i ↔ ∃ t ∈ s.tandbot, t.id = i ∧ rfcCaseEq who t.bot = true := by
  rw [h.synced, Option.map_eq_some_iff]
  constructor
  · rintro ⟨t, hfind, rfl⟩
    exact ⟨t, List.mem_of_find?_eq_some hfind, rfl, by simpa using List.find?_some hfind⟩
  · rintro ⟨t, ht, rfl, hname⟩
    obtain ⟨u, hfind⟩ := Option.isSome_iff_exists.1
      (List.find?_isSome (p := fun t => rfcCaseEq who t.bot) |>.2 ⟨t, ht, hname⟩)
    have hu : rfcCaseEq who u.bot = true := by simpa using List.find?_some hfind
    rw [rfcCaseEq_comm] at hu
    obtain rfl := h.eq_of_name (List.mem_of_find?_eq_some hfind) ht (rfcCaseEq_trans hu hname)
    exact ⟨u, hfind, rfl⟩

theorem findbot_eq_none (h : Base ok s) :
    s.findbot who = none ↔ ∀ t ∈ s.tandbot, rfcCaseEq who t.bot = false := by
  rw [h.synced, Option.map_eq_none_iff, List.find?_eq_none]
  simp only [Bool.not_eq_true]

end Base

/-! ### Removing one entry -/

/-- What `rembot` can do. -/
theorem rembot_cases (s : Botnet) (who : CStr) :
    s.rembot who = s ∧ (∀ t ∈ s.tandbot, strcaseEq t.bot who = false) ∨
    ∃ pre t post, s.tandbot = pre ++ t :: post ∧ strcaseEq t.bot who = true ∧
      s.rembot who = { s with
        tandbot := pre ++ post, botTable := s.botTable.erase (rfcFold t.bot) } := by
  unfold rembot
  split
  · next hnone =>
    refine .inl ⟨rfl, fun t ht => ?_⟩
    simpa using List.find?_eq_none.1 hnone t ht
  · next t hfind =>
    obtain ⟨hp, pre, post, hsplit, hpre⟩ := List.find?_eq_some_iff_append.1 hfind
    refine .inr ⟨pre, t, post, hsplit, hp, ?_⟩
    have herase : s.tandbot.eraseP (strcaseEq ·.bot who) = pre ++ post := by
      rw [hsplit, List.eraseP_append_right _ (fun u hu => by simpa using hpre u hu),
        List.eraseP_cons_of_pos (p := fun u : Tand => strcaseEq u.bot who) hp]
    simp only [herase]

/-- The rest of the state, and no new entries. -/
structure Shrinks (s s' : Botnet) : Prop where
  nick : s'.botnetnick = s.botnetnick
  dcc : s'.dcc = s.dcc
  fresh : s'.fresh = s.fresh
  sub : s'.tandbot.Sublist s.tandbot

theorem Shrinks.refl (s : Botnet) : Shrinks s s := ⟨rfl, rfl, rfl, List.Sublist.refl _⟩

theorem Shrinks.trans (h : Shrinks s s') (h' : Shrinks s' s'') : Shrinks s s'' :=
  ⟨h'.nick.trans h.nick, h'.dcc.trans h.dcc, h'.fresh.trans h.fresh, h'.sub.trans h.sub⟩

theorem shrinks_rembot (s : Botnet) (who : CStr) : Shrinks s (s.rembot who) := by
  rcases s.rembot_cases who with ⟨heq, -⟩ | ⟨pre, t, post, hsplit, -, heq⟩
  · rw [heq]
    exact .refl s
  · rw [heq]
    refine ⟨rfl, rfl, rfl, ?_⟩
    rw [hsplit]
    exact List.sublist_cons_self t post |>.append_left pre

theorem Base.rembot (h : Base ok s) (who : CStr) : Base ok (s.rembot who) := by
  have hsub := shrinks_rembot s who
  refine ⟨fun t ht => ?_, h.names.sublist hsub.sub, fun w => ?_, fun t ht => ?_,
    fun t ht => h.named t (hsub.sub.subset ht), hsub.nick ▸ h.me⟩
  · rw [hsub.fresh]
    exact h.young t (hsub.sub.subset ht)
  · rcases s.rembot_cases who with ⟨heq, -⟩ | ⟨pre, t, post, hsplit, -, heq⟩
    · rw [heq]
      exact h.synced w
    · rw [heq]
      show (s.botTable.erase (rfcFold t.bot)).lookup (rfcFold w) = _
      have hnames := h.names
      rw [hsplit, List.pairwise_append, List.pairwise_cons] at hnames
      obtain ⟨-, ⟨hpost, -⟩, hpre⟩ := hnames
      by_cases hw : rfcCaseEq w t.bot = true
      · have hnone : (pre ++ post).find? (fun u => rfcCaseEq w u.bot) = none := by
          rw [List.find?_eq_none]
          intro u hu hwu
          rw [rfcCaseEq_comm] at hw
          have htu := rfcCaseEq_trans hw hwu
          rcases List.mem_append.1 hu with hu | hu
          · rw [rfcCaseEq_comm, hpre u hu t List.mem_cons_self] at htu
            cases htu
          · rw [hpost u hu] at htu
            cases htu
        rw [rfcFold_eq_iff.2 hw, AList.lookup_erase, hnone, Option.map_none]
      · rw [AList.lookup_erase_ne fun heq => hw (rfcFold_eq_iff.1 heq)]
        have hsync := h.synced w
        rw [hsplit, List.find?_append,
          List.find?_cons_of_neg (p := fun u : Tand => rfcCaseEq w u.bot) hw,
          ← List.find?_append] at hsync
        exact hsync
  · rw [hsub.nick]
    exact h.foreign t (hsub.sub.subset ht)

theorem Inv.rembot (h : Inv ok s)
    (hleaf : ∀ t ∈ s.tandbot, strcaseEq t.bot who = true →
      ∀ u ∈ s.tandbot, u.uplink ≠ .bot t.id) : Inv ok (s.rembot who) := by
  refine ⟨h.toBase.rembot who, ?_⟩
  rcases s.rembot_cases who with ⟨heq, -⟩ | ⟨pre, t, post, hsplit, hname, heq⟩
  · rw [heq]
    exact h.forest
  · rw [heq]
    refine Pointers.Forest.erase_leaf (t := t) (hsplit ▸ h.forest) fun u hu hpar => ?_
    rw [← hsplit] at hu
    exact hleaf t (by rw [hsplit]; simp) hname u hu (parent_eq_some.1 hpar)

theorem mem_rembot (ht : t ∈ s.tandbot) (hne : strcaseEq t.bot who = false) :
    t ∈ (s.rembot who).tandbot := by
  rcases s.rembot_cases who with ⟨heq, -⟩ | ⟨pre, u, post, hsplit, hname, heq⟩
  · rwa [heq]
  · rw [heq]
    rw [hsplit] at ht
    rcases List.mem_append.1 ht with ht | ht
    · exact List.mem_append_left _ ht
    · rcases List.mem_cons.1 ht with rfl | ht
      · rw [hname] at hne
        cases hne
      · exact List.mem_append_right _ ht

theorem Base.not_mem_rembot (h : Base ok s) (ht : t ∈ s.tandbot)
    (hu : u ∈ (s.rembot t.bot).tandbot) : u ≠ t := by
  rintro rfl
  rcases s.rembot_cases u.bot with ⟨-, hno⟩ | ⟨pre, t, post, hsplit, hname, heq⟩
  · have := hno u ht
    rw [strcaseEq_refl] at this
    cases this
  · have hnames := h.names
    rw [hsplit, List.pairwise_append, List.pairwise_cons] at hnames
    obtain ⟨-, ⟨hpost, -⟩, hpre⟩ := hnames
    have hrfc := rfcCaseEq_of_strcaseEq hname
    rw [heq] at hu
    rcases List.mem_append.1 hu with hu | hu
    · have := hpre u hu t List.mem_cons_self
      rw [rfcCaseEq_comm, hrfc] at this
      cases this
    · rw [hpost u hu] at hrfc
      cases hrfc

/-! ### Removing what hangs from an entry -/

theorem Inv.deref_of_mem (h : Inv ok s) (ht : t ∈ s.tandbot) : s.deref t.id = some t := by
  obtain ⟨u, hfind⟩ := Option.isSome_iff_exists.1
    (List.find?_isSome (p := fun u : Tand => u.id == t.id) |>.2 ⟨t, ht, beq_self_eq_true t.id⟩)
  have hid : u.id = t.id := by simpa using List.find?_some hfind
  rw [deref, hfind, h.forest.eq_of_id (List.mem_of_find?_eq_some hfind) ht hid]

theorem mem_of_deref (h : s.deref i = some t) : t ∈ s.tandbot ∧ t.id = i :=
  ⟨List.mem_of_find?_eq_some h, by simpa using List.find?_some h⟩

/-- What a removal below `who` does: nothing older than `who` goes, and nothing that is left is in
`gone`. -/
structure Cleared (ok : CStr → Prop) (who : Nat) (gone : Tand → Prop) (s s' : Botnet) : Prop where
  inv : Inv ok s'
  shrinks : Shrinks s s'
  clear : ∀ t ∈ s'.tandbot, ¬ gone t
  kept : ∀ t ∈ s.tandbot, t.id ≤ who → t ∈ s'.tandbot

/-- The loop of `unvia`, given what its calls do. -/
theorem unviaLoop_spec {who n : Nat} {f : Nat → Botnet → Botnet}
    (hf : ∀ i s, Inv ok s → s.fresh ≤ i + n + 1 → Cleared ok i (·.uplink = .bot i) s (f i s)) :
    ∀ (is : List Nat) (s : Botnet), Inv ok s → s.fresh ≤ who + n + 2 →
      Cleared ok who (fun t => t.id ∈ is ∧ t.uplink = .bot who) s (unviaLoop who f is s)
  | [], s, h, _ => ⟨h, .refl s, fun _ _ hgone => absurd hgone.1 List.not_mem_nil, fun _ ht _ => ht⟩
  | i :: is, s, h, hfresh => by
    rw [unviaLoop]
    -- the entries with the numbers `is` by induction, those with number `i` as `hi` says
    have hrest {s' : Botnet} (h' : Inv ok s') (hsh : Shrinks s s')
        (hkept : ∀ t ∈ s.tandbot, t.id ≤ who → t ∈ s'.tandbot)
        (hi : ∀ t ∈ s'.tandbot, t.id = i → t.uplink ≠ .bot who) :
        Cleared ok who (fun t => t.id ∈ i :: is ∧ t.uplink = .bot who) s (unviaLoop who f is s') := by
      have hloop := unviaLoop_spec hf is s' h' (hsh.fresh.symm ▸ hfresh)
      refine ⟨hloop.inv, hsh.trans hloop.shrinks, fun t ht hgone => ?_,
        fun t ht hle => hloop.kept t (hkept t ht hle) hle⟩
      rcases List.mem_cons.1 hgone.1 with hid | hid
      · exact hi t (hloop.shrinks.sub.subset ht) hid hgone.2
      · exact hloop.clear t ht ⟨hid, hgone.2⟩
    split
    · next hnone =>
      refine hrest h (.refl s) (fun _ ht _ => ht) fun t ht hid => ?_
      rw [← hid, h.deref_of_mem ht] at hnone
      cases hnone
    · next bot hbot =>
      obtain ⟨hmem, rfl⟩ := mem_of_deref hbot
      split
      · next hup =>
        obtain ⟨-, -, -, hlt, -⟩ := h.forest.parent_mem hmem (parent_eq_some.2 hup)
        change who < bot.id at hlt
        have hcall := hf bot.id s h (by omega)
        have hbot' : bot ∈ (f bot.id s).tandbot := hcall.kept bot hmem le_rfl
        have hleaf : ∀ t ∈ (f bot.id s).tandbot, strcaseEq t.bot bot.bot = true →
            ∀ u ∈ (f bot.id s).tandbot, u.uplink ≠ .bot t.id := by
          intro t ht hname u hu
          rw [hcall.inv.eq_of_name ht hbot' (rfcCaseEq_of_strcaseEq hname)]
          exact hcall.clear u hu
        have hrem := shrinks_rembot (f bot.id s) bot.bot
        refine hrest (hcall.inv.rembot hleaf) (hcall.shrinks.trans hrem) (fun t ht hle => ?_)
          fun t ht hid => ?_
        · have ht' := hcall.kept t ht (by omega)
          refine mem_rembot ht' ?_
          rw [← Bool.not_eq_true]
          intro hname
          rw [hcall.inv.eq_of_name ht' hbot' (rfcCaseEq_of_strcaseEq hname)] at hle
          omega
        · exact absurd (hcall.inv.forest.eq_of_id (hrem.sub.subset ht) hbot' hid)
            (hcall.inv.not_mem_rembot hbot' ht)
      · next hup =>
        refine hrest h (.refl s) (fun _ ht _ => ht) fun t ht hid => ?_
        rw [h.forest.eq_of_id ht hmem hid]
        exact hup

/-- With enough fuel nothing that hangs from `who` is left. -/
theorem unviaRec_spec (n : Nat) : ∀ (who : Nat) (s : Botnet), Inv ok s → s.fresh ≤ who + n + 1 →
    Cleared ok who (·.uplink = .bot who) s (unviaRec n who s) := by
  induction n with
  | zero =>
    intro who s h hfresh
    refine ⟨h, .refl s, fun t ht hup => ?_, fun _ ht _ => ht⟩
    obtain ⟨-, -, -, hlt, -⟩ := h.forest.parent_mem ht (parent_eq_some.2 hup)
    change who < t.id at hlt
    have := h.young t ht
    omega
  | succ n ih =>
    intro who s h hfresh
    have hloop : Cleared ok who (fun t => t.id ∈ s.tandbot.map (·.id) ∧ t.uplink = .bot who) s
        (unviaRec (n + 1) who s) :=
      unviaLoop_spec ih (s.tandbot.map (·.id)) s h (by omega)
    refine ⟨hloop.inv, hloop.shrinks, fun t ht hup => ?_, hloop.kept⟩
    exact hloop.clear t ht ⟨List.mem_map.2 ⟨t, hloop.shrinks.sub.subset ht, rfl⟩, hup⟩

theorem Inv.unvia (h : Inv ok s) (who : CStr) : Inv ok (s.unvia (s.findbot who)) := by
  cases hfind : s.findbot who with
  | none => exact h
  | some i => exact (unviaRec_spec s.fresh i s h (by omega)).inv

theorem Inv.unvia_rembot (h : Inv ok s) (who : CStr) :
    Inv ok ((s.unvia (s.findbot who)).rembot who) ∧
      Shrinks s ((s.unvia (s.findbot who)).rembot who) := by
  cases hfind : s.findbot who with
  | none =>
    refine ⟨h.rembot fun t ht hname => ?_, shrinks_rembot s who⟩
    have hno := h.findbot_eq_none.1 hfind t ht
    rw [rfcCaseEq_comm, rfcCaseEq_of_strcaseEq hname] at hno
    cases hno
  | some i =>
    obtain ⟨b, hb, rfl, hname⟩ := h.findbot_eq_some.1 hfind
    have hclear : Cleared ok b.id (·.uplink = .bot b.id) s (s.unvia (some b.id)) :=
      unviaRec_spec s.fresh b.id s h (by omega)
    refine ⟨hclear.inv.rembot fun t ht hname' u hu => ?_,
      hclear.shrinks.trans (shrinks_rembot _ who)⟩
    have htb := h.eq_of_name (hclear.shrinks.sub.subset ht) hb
      (rfcCaseEq_trans (rfcCaseEq_of_strcaseEq hname') hname)
    rw [htb]
    exact hclear.clear u hu

/-! ### Adding an entry -/

theorem findbot_addbot (who from_ next : CStr) (flag : Char) (vernum : Int) (w : CStr) :
    (s.addbot who from_ next flag vernum).findbot w =
      if rfcCaseEq w who then some s.fresh else s.findbot w := by
  show (s.botTable.insert (rfcFold who) s.fresh).lookup (rfcFold w) = _
  split
  · next hw => rw [rfcFold_eq_iff.2 hw, AList.lookup_insert]
  · next hw => exact AList.lookup_insert_ne fun heq => hw (rfcFold_eq_iff.1 heq)

/-- The entry that `addbot` makes. -/
def entryOf (s : Botnet) (who from_ next : CStr) (flag : Char) (vernum : Int) : Tand where
  id := s.fresh
  bot := who
  via := (s.addbot who from_ next flag vernum).findbot from_
  uplink :=
    if strcaseEq next s.botnetnick then .me
    else match (s.addbot who from_ next flag vernum).findbot next with
      | some id => .bot id
      | none => .null
  share := flag
  ver := vernum

theorem tandbot_addbot (who from_ next : CStr) (flag : Char) (vernum : Int) :
    (s.addbot who from_ next flag vernum).tandbot =
      s.tandbot ++ [s.entryOf who from_ next flag vernum] := rfl

theorem Inv.addbot (h : Inv ok s) {who from_ next : CStr} {flag : Char} {vernum : Int}
    (hno : s.findbot who = none) (hforeign : rfcCaseEq who s.botnetnick = false)
    (hok : ok who)
    (hhang : pointers.Hangs s.tandbot (s.entryOf who from_ next flag vernum)) :
    Inv ok (s.addbot who from_ next flag vernum) where
  young t ht := by
    rw [tandbot_addbot] at ht
    rcases List.mem_append.1 ht with ht | ht
    · exact Nat.lt_succ_of_lt (h.young t ht)
    · rw [List.mem_singleton.1 ht]
      exact Nat.lt_succ_self s.fresh
  names := by
    rw [tandbot_addbot]
    refine List.pairwise_append.2 ⟨h.names, List.pairwise_singleton _ _, fun a ha b hb => ?_⟩
    rw [List.mem_singleton.1 hb, rfcCaseEq_comm]
    exact h.findbot_eq_none.1 hno a ha
  synced w := by
    rw [findbot_addbot, tandbot_addbot, List.find?_append]
    split
    · next hw =>
      rw [← findbot_congr hw, h.synced, Option.map_eq_none_iff] at hno
      rw [hno, Option.none_or, List.find?_cons_of_pos (p := fun t : Tand => rfcCaseEq w t.bot) hw]
      rfl
    · next hw =>
      rw [h.synced, List.find?_cons_of_neg (p := fun t : Tand => rfcCaseEq w t.bot) hw,
        List.find?_nil, Option.or_none]
  foreign t ht := by
    rw [tandbot_addbot] at ht
    rcases List.mem_append.1 ht with ht | ht
    · exact h.foreign t ht
    · rw [List.mem_singleton.1 ht]
      exact hforeign
  named t ht := by
    rw [tandbot_addbot] at ht
    rcases List.mem_append.1 ht with ht | ht
    · exact h.named t ht
    · rw [List.mem_singleton.1 ht]
      exact hok
  me := h.me
  forest := by
    rw [tandbot_addbot]
    exact h.forest.snoc h.young hhang

theorem hangs_direct (who : CStr) (flag : Char) (vernum : Int) :
    pointers.Hangs s.tandbot (s.entryOf who who s.botnetnick flag vernum) := by
  refine .inl ⟨?_, ?_, ?_⟩
  · simp [pointers, entryOf]
  · simp [pointers, entryOf, Uplink.entry?]
  · show (s.addbot who who s.botnetnick flag vernum).findbot who = some s.fresh
    rw [findbot_addbot, if_pos (rfcCaseEq_refl who)]

/-- What `nextbot` finds: a bot and, as its first hop, the bot at the other end of a link. -/
theorem Inv.nextbot_eq_some (h : Inv ok s) {idx : Nat} (hnext : s.nextbot who = some idx) :
    ∃ b ∈ s.tandbot, ∃ v ∈ s.tandbot, ∃ d, rfcCaseEq who b.bot = true ∧ b.via = some v.id ∧
      s.dcc[idx]? = some d ∧ strcaseEq v.bot d.nick = true := by
  simp only [nextbot, Option.bind_eq_bind, Option.bind_eq_some_iff] at hnext
  obtain ⟨i, hfind, b, hb, j, hvia, v, hv, hidx⟩ := hnext
  obtain ⟨b', hb', rfl, hname⟩ := h.findbot_eq_some.1 hfind
  obtain rfl := Option.some.inj ((h.deref_of_mem hb').symm.trans hb)
  obtain ⟨hvmem, rfl⟩ := mem_of_deref hv
  obtain ⟨hlt, hp, -⟩ := List.findIdx?_eq_some_iff_getElem.1 hidx
  refine ⟨b', hb', v, hvmem, s.dcc[idx], hname, hvia, List.getElem?_eq_getElem hlt, ?_⟩
  rw [Bool.and_eq_true] at hp
  exact hp.1

theorem Inv.hangs_nlinked (h : Inv ok s) {idx : Nat} {d : Dcc} {next : CStr} {flag : Char}
    {vernum : Int} (hd : s.dcc[idx]? = some d) (hno : s.findbot who = none)
    (hnext : s.nextbot next = some idx) :
    pointers.Hangs s.tandbot (s.entryOf who d.nick next flag vernum) := by
  obtain ⟨b, hb, v, hv, d', hname, hvia, hd', hnick⟩ := h.nextbot_eq_some hnext
  obtain rfl := Option.some.inj (hd.symm.trans hd')
  have hother {w : CStr} {t : Tand} (ht : t ∈ s.tandbot) (hw : rfcCaseEq w t.bot = true) :
      (s.addbot who d.nick next flag vernum).findbot w = some t.id := by
    have hfind := h.findbot_eq_some.2 ⟨t, ht, rfl, hw⟩
    rw [findbot_addbot, if_neg ?_, hfind]
    intro heq
    rw [findbot_congr heq, hno] at hfind
    cases hfind
  have hme : strcaseEq next s.botnetnick = false := by
    rw [← Bool.not_eq_true]
    intro heq
    have hforeign := h.foreign b hb
    rw [rfcCaseEq_comm] at hname
    rw [rfcCaseEq_trans hname (rfcCaseEq_of_strcaseEq heq)] at hforeign
    cases hforeign
  refine .inr ⟨b, hb, parent_eq_some.2 ?_, ?_⟩
  · simp only [entryOf, hme, hother hb hname]
    rfl
  · show (s.addbot who d.nick next flag vernum).findbot d.nick = b.via
    rw [strcaseEq_comm] at hnick
    rw [hother hv (rfcCaseEq_of_strcaseEq hnick), hvia]

/-! ### The steps keep it -/

theorem Inv.withDcc (h : Inv ok s) (dcc : List Dcc) : Inv ok { s with dcc } :=
  ⟨⟨h.young, h.names, h.synced, h.foreign, h.named, h.me⟩, h.forest⟩

theorem Inv.lostdcc (h : Inv ok s) (idx : Nat) : Inv ok (s.lostdcc idx) := by
  unfold Botnet.lostdcc
  split
  · exact h
  · refine Inv.withDcc ?_ _
    unfold freeDccBot
    split
    · exact (h.unvia_rembot _).1
    · exact h

theorem Inv.loseFirst (h : Inv ok s) (n : Nat) : Inv ok (loseFirst n s) := by
  induction n generalizing s with
  | zero => exact h
  | succ n ih => exact ih (h.lostdcc 0)

theorem Base.wipe (h : Base ok s) {n : Nat} (hn : s.tandbot.length ≤ n) :
    Base ok (wipe n s) ∧ (wipe n s).tandbot = [] := by
  induction n generalizing s with
  | zero => exact ⟨h, List.eq_nil_of_length_eq_zero (Nat.le_zero.1 hn)⟩
  | succ n ih =>
    rw [Botnet.wipe]
    split
    · next hnil => exact ⟨h, hnil⟩
    · next t rest hcons =>
      refine ih (h.rembot t.bot) ?_
      rcases s.rembot_cases t.bot with ⟨-, hno⟩ | ⟨pre, u, post, hsplit, -, heq⟩
      · have := hno t (by rw [hcons]; exact List.mem_cons_self)
        rw [strcaseEq_refl] at this
        cases this
      · rw [hsplit, List.length_append, List.length_cons] at hn
        rw [heq, List.length_append]
        omega

theorem Inv.updatebot (h : Inv ok s) (who : CStr) (share : Option Char) (vernum : Int) :
    Inv ok (s.updatebot who share vernum) := by
  unfold Botnet.updatebot
  split
  · exact h
  · next id _ =>
    generalize hf : (fun t : Tand => if t.id = id then
      { t with share := share.getD t.share, ver := if vernum = 0 then t.ver else vernum } else t) = f
    have hkeep (t : Tand) :
        (f t).id = t.id ∧ (f t).bot = t.bot ∧ (f t).uplink = t.uplink ∧ (f t).via = t.via := by
      rw [← hf]
      dsimp only
      split <;> exact ⟨rfl, rfl, rfl, rfl⟩
    have hmem {Q : Tand → Prop} (hQ : ∀ t, Q t → Q (f t)) (hall : ∀ t ∈ s.tandbot, Q t) :
        ∀ t ∈ s.tandbot.map f, Q t := by
      intro t ht
      obtain ⟨u, hu, rfl⟩ := List.mem_map.1 ht
      exact hQ u (hall u hu)
    refine ⟨⟨hmem (fun t ht => ?_) h.young, ?_, fun w => ?_, hmem (fun t ht => ?_) h.foreign,
      hmem (fun t ht => ?_) h.named, h.me⟩, ?_⟩
    · rw [(hkeep t).1]
      exact ht
    · refine List.pairwise_map.2 (h.names.imp fun hab => ?_)
      rw [(hkeep _).2.1, (hkeep _).2.1]
      exact hab
    · rw [List.find?_map, Option.map_map]
      have hid : Tand.id ∘ f = Tand.id := funext fun t => (hkeep t).1
      have hname : (fun t : Tand => rfcCaseEq w t.bot) ∘ f = fun t => rfcCaseEq w t.bot :=
        funext fun t => congrArg (rfcCaseEq w) (hkeep t).2.1
      rw [hid, hname]
      exact h.synced w
    · rw [(hkeep t).2.1]
      exact ht
    · rw [(hkeep t).2.1]
      exact ht
    · refine h.forest.map (fun t => (hkeep t).1) (fun t ht => ?_) (fun t => ?_)
        fun t => (hkeep t).2.2.2
      · exact (hkeep t).2.2.1.trans ht
      · exact congrArg Uplink.entry? (hkeep t).2.2.1

/-- A removal that leaves nothing hanging. -/
def LeavesNone (s : Botnet) (who : CStr) : Prop :=
  ∀ t ∈ s.tandbot, strcaseEq t.bot who = true → ∀ u ∈ s.tandbot, u.uplink ≠ .bot t.id

/-- The condition on a step: no link is completed, a bot that is added has a name that can be told
from ours, and a bot that is removed by itself has none behind it. -/
def Safe (s : Botnet) : Event → Prop
  | .version idx par => ∀ d ∈ s.dcc[idx]?, d.type = .botNew → s.inChain d.nick = false →
    versionHandlen par ≠ handLen
  | .nlinked idx par leaf => ∀ d ∈ s.dcc[idx]?, d.type = .bot →
    s.nlinkedRefusal idx (nlinkedWords par).1 (nlinkedWords par).2.1 leaf = none →
    rfcCaseEq (nlinkedWords par).1 s.botnetnick = false
  | .botunlink nick _ => nick.head? ≠ some '*' → s.dcc.findIdx? (strcaseEq ·.nick nick) = none →
    ∀ b ∈ s.findbot nick >>= s.deref, s.LeavesNone b.bot
  | .reject handle => s.inChain handle = true → s.nextbot handle = none →
    strcaseEq s.botnetnick handle = false → s.LeavesNone handle
  | _ => True

theorem inChain_eq_false (h : s.inChain who = false) :
    s.findbot who = none ∧ strcaseEq who s.botnetnick = false := by
  rw [inChain, Bool.or_eq_false_iff] at h
  exact ⟨by simpa using h.1, h.2⟩

theorem Inv.linked (h : Inv ok s) {nick : CStr} (hin : s.inChain nick = false)
    (hforeign : rfcCaseEq nick s.botnetnick = false) (hok : ok nick) (numver : Int) :
    Inv ok (s.linked nick numver) :=
  (h.addbot (inChain_eq_false hin).1 hforeign hok (hangs_direct _ _ _)).withDcc _

theorem Inv.botVersion (h : Inv ok s) {idx : Nat} {d : Dcc} {par : CStr}
    (hsafe : s.inChain d.nick = false → versionHandlen par ≠ handLen) :
    ∃ s', s.botVersion idx d par = .ok s' ∧ Inv ok s' := by
  unfold Botnet.botVersion
  split
  · exact ⟨_, rfl, h.lostdcc idx⟩
  · next hin =>
    rw [Bool.not_eq_true] at hin
    rw [if_pos (hsafe hin)]
    exact ⟨_, rfl, h.lostdcc idx⟩

/-- What the checks of `bot_nlinked` ensure. -/
theorem nlinkedRefusal_eq_none {idx : Nat} {newbot next : CStr} {leaf : Bool} :
    s.nlinkedRefusal idx newbot next leaf = none ↔
      leaf = false ∧ next ≠ [] ∧ s.inChain newbot = false ∧ newbot.any badChar = false ∧
        newbot.length ≤ handLen ∧ s.nextbot next = some idx := by
  have hif {c : Prop} [Decidable c] {a : Refusal} {x : Option Refusal} :
      (if c then some a else x) = none ↔ ¬ c ∧ x = none := by
    split <;> simp [*]
  have hin : (s.inChain newbot || strcaseEq newbot s.botnetnick) = s.inChain newbot := by
    rw [inChain, Bool.or_assoc, Bool.or_self]
  rw [nlinkedRefusal, hin, hif, hif, hif, hif]
  simp only [Bool.not_eq_true, List.isEmpty_eq_false_iff, Bool.or_eq_false_iff, and_true,
    decide_eq_false_iff_not, Nat.not_lt, bne_eq_false_iff_eq, and_assoc]

theorem newsplit_fst_ne_nil {par : CStr} (h : (newsplit (newsplit par).2).1 ≠ []) :
    (newsplit par).1 ≠ [] := by
  intro hnil
  refine h ?_
  rw [newsplit_nil_of_fst hnil]
  rfl

theorem Inv.botNlinked (h : Inv Sayable s) {idx : Nat} {d : Dcc} {par : CStr} {leaf : Bool}
    (hd : s.dcc[idx]? = some d)
    (hsafe : s.nlinkedRefusal idx (nlinkedWords par).1 (nlinkedWords par).2.1 leaf = none →
      rfcCaseEq (nlinkedWords par).1 s.botnetnick = false) :
    Inv Sayable (s.botNlinked idx d par leaf) := by
  simp only [Botnet.botNlinked]
  split
  · exact h.lostdcc idx
  · next hnone =>
    obtain ⟨-, hnext, hin, hplain, hshort, hidx⟩ := nlinkedRefusal_eq_none.1 hnone
    have hno := (inChain_eq_false hin).1
    exact h.addbot hno (hsafe hnone)
      ⟨newsplit_fst_ne_nil hnext, space_notMem_newsplit par, hplain, hshort⟩
      (h.hangs_nlinked hd hno hidx)

theorem Inv.botThisbot (h : Inv ok s) (idx : Nat) (d : Dcc) (par : CStr) :
    Inv ok (s.botThisbot idx d par) := by
  unfold Botnet.botThisbot
  split
  · exact h.withDcc _
  · exact (h.unvia d.nick).lostdcc idx

theorem Inv.botunlink (h : Inv ok s) {nick : CStr} (kept : Dcc → Bool)
    (hsafe : nick.head? ≠ some '*' → s.dcc.findIdx? (strcaseEq ·.nick nick) = none →
      ∀ b ∈ s.findbot nick >>= s.deref, s.LeavesNone b.bot) : Inv ok (s.botunlink nick kept) := by
  simp only [Botnet.botunlink]
  split
  · split
    · exact h.loseFirst _
    · have hwipe := (h.loseFirst s.dcc.length).toBase.wipe le_rfl
      refine ⟨hwipe.1, ?_⟩
      rw [hwipe.2]
      exact .nil
  · next hstar =>
    split
    · split
      · exact h
      · exact h.lostdcc _
    · next hnone =>
      split
      · next b hb => exact h.rembot (hsafe hstar hnone b hb)
      · exact h

theorem Inv.rejectBot (h : Inv ok s) {handle : CStr}
    (hsafe : s.inChain handle = true → s.nextbot handle = none →
      strcaseEq s.botnetnick handle = false → s.LeavesNone handle) :
    Inv ok (s.rejectBot handle) := by
  unfold Botnet.rejectBot
  split
  · next hin =>
    split
    · split
      · exact h.lostdcc _
      · exact h
    · next hnone =>
      split
      · exact h
      · next hme => exact h.rembot (hsafe hin hnone (by simpa using hme))
  · exact h

theorem step_ok (h : Inv Sayable s) {e : Event} (hsafe : Safe s e) :
    ∃ s', s.step e = .ok s' ∧ Inv Sayable s' := by
  have hfrom {idx : Nat} {f : Dcc → Botnet}
      (hf : ∀ d, s.dcc[idx]? = some d → d.type = .bot → Inv Sayable (f d)) :
      Inv Sayable (s.fromBot idx f) := by
    unfold fromBot
    split
    · exact h
    · next d hd =>
      split
      · next hbot => exact hf d hd hbot
      · exact h
  cases e with
  | connect nick => exact ⟨_, rfl, h.withDcc _⟩
  | version idx par =>
    rw [step]
    split
    · exact ⟨s, rfl, h⟩
    · next d hd =>
      split
      · next hnew => exact h.botVersion fun hin => hsafe d hd hnew hin
      · exact ⟨s, rfl, h⟩
  | nlinked idx par leaf =>
    exact ⟨_, rfl, hfrom fun d hd hbot => h.botNlinked hd (hsafe d hd hbot)⟩
  | unlinked idx par =>
    refine ⟨_, rfl, hfrom fun d hd hbot => ?_⟩
    simp only [botUnlinked]
    split
    · exact (h.unvia_rembot _).1
    · exact h
  | update par =>
    refine ⟨_, rfl, ?_⟩
    unfold botUpdate
    dsimp only
    split
    · exact h.updatebot _ _ _
    · exact h
  | thisbot idx par => exact ⟨_, rfl, hfrom fun d _ _ => h.botThisbot idx d par⟩
  | lost idx => exact ⟨_, rfl, h.lostdcc idx⟩
  | botunlink nick kept => exact ⟨_, rfl, h.botunlink kept hsafe⟩
  | reject handle => exact ⟨_, rfl, h.rejectBot hsafe⟩

theorem inv_start (ok : CStr → Prop) {botnetnick : CStr}
    (hme : botnetnick ≠ [] ∧ ' ' ∉ botnetnick) : Inv ok (start botnetnick) where
  young _ ht := absurd ht List.not_mem_nil
  names := List.Pairwise.nil
  synced _ := rfl
  foreign _ ht := absurd ht List.not_mem_nil
  named _ ht := absurd ht List.not_mem_nil
  me := hme
  forest := .nil

end Botnet
end Eggdrop.Tandem
