import Eggdrop.Irc.ModeReply

/-!
# ModeWord — which replies are read rightly

A reply is a mode word, whose letters have parameters or not.  `got324` gives the parameters to the
letters `k` and `l`, in order, and reads what is left over as modes.

* `ModeWord.read_of_ordered`: a reply is read rightly, whatever its parameters hold, where no other
  letter has one.
* `ModeWord.ordered_of_readRightly`: no other reply is.
* `got324_iff`: which replies are read rightly; what `getchanmode` writes never is, as it writes
  nothing.
-/

namespace Eggdrop.ModeReply

/-! ### Replies -/

/-- A word of a message. -/
def IsWord (s : CStr) : Prop := s ≠ [] ∧ ' ' ∉ s

instance (s : CStr) : Decidable (IsWord s) := inferInstanceAs (Decidable (_ ∧ _))

/-- A mode word as it stands in a reply: each letter once, and which of them have a parameter. -/
structure ModeWord where
  letters : List (Char × Bool)
  nodup : (letters.map Prod.fst).Nodup
  blank : ' ' ∉ letters.map Prod.fst

namespace ModeWord

variable (w : ModeWord) (param : Char → {p : CStr // IsWord p})

def word : CStr := w.letters.map Prod.fst

/-- The letters that have a parameter. -/
def owners : CStr := (w.letters.filter Prod.snd).map Prod.fst

/-- The reply with these parameters. -/
def text : CStr := '+' :: w.word ++ w.owners.flatMap fun c => ' ' :: (param c).1

/-- The modes are those of the letters, the key and the limit the parameters of `k` and `l`; without
one they stay. -/
def Right (chan chan' : Channel) : Prop :=
  chan'.mode = modeBits w.word ∧
    chan'.key = (if 'k' ∈ w.owners then (param 'k').1 else chan.key) ∧
    chan'.maxmembers = if 'l' ∈ w.owners then eggAtoi (param 'l').1 else chan.maxmembers

/-- Whatever the parameters hold, the reply is read rightly. -/
def ReadRightly : Prop :=
  ∀ (findchan : CStr → Option Channel) (me chname : CStr) (chan : Channel)
    (param : Char → {p : CStr // IsWord p}),
    IsWord me → IsWord chname → findchan chname = some chan →
    ∃ chan' recheck,
      got324 findchan (me ++ ' ' :: (chname ++ ' ' :: w.text param)) = some (.modes chan' recheck) ∧
        w.Right param chan chan'

/-- No letter has a parameter, or those are exactly the letters that `got324` gives one. -/
def Ordered : Prop := w.owners = [] ∨ w.owners = takers w.word

end ModeWord

section Reply

variable {w : ModeWord} {param : Char → {p : CStr // IsWord p}} {chan : Channel} {me chname text : CStr}
  {findchan : CStr → Option Channel}

theorem got324_eq (hme : IsWord me) (hchname : IsWord chname) (hfind : findchan chname = some chan) :
    got324 findchan (me ++ ' ' :: (chname ++ ' ' :: text)) =
      (readModes (ofText text).length 1 { chan with mode := 0, asked := false } (ofText text)).map
        fun chan' => .modes chan' chan.asked := by
  unfold got324
  rw [newsplit_word _ hme.1 hme.2]
  dsimp only
  rw [newsplit_word _ hchname.1 hchname.2]
  dsimp only
  rw [hfind]

/-- The parameters of a text, as the loop finds them at its start. -/
def startParams (ps : List CStr) : Option (List CStr) := if ps = [] then none else some ps

theorem tailText_startParams (ps : List CStr) :
    tailText (startParams ps) = ps.flatMap fun p => ' ' :: p := by
  unfold startParams
  split
  · rename_i h
    subst h
    rfl
  · match ps with
    | p :: ps => rfl

theorem blank_plus {word : CStr} (h : ' ' ∉ word) : ' ' ∉ '+' :: word := by
  rw [List.mem_cons]
  rintro (h' | h')
  · exact absurd h' (by decide)
  · exact h h'

theorem readModes_text {word : CStr} {ps : List CStr} (hword : ' ' ∉ word) (hps : ∀ p ∈ ps, ' ' ∉ p)
    (chan : Channel) :
    ∃ n buf, readModes (ofText ('+' :: word ++ ps.flatMap fun p => ' ' :: p)).length 1 chan
        (ofText ('+' :: word ++ ps.flatMap fun p => ' ' :: p)) =
          readModes (n + 2) ('+' :: word).length (word.foldl readLetter (chan, startParams ps)).1 buf ∧
      Holds ('+' :: word) (word.foldl readLetter (chan, startParams ps)).2 buf := by
  have hstart : ∀ l, startParams ps = some l → ∀ p ∈ l, ' ' ∉ p := by
    intro l hl
    unfold startParams at hl
    split at hl
    · cases hl
    · obtain rfl := Option.some.inj hl
      exact hps
  have hholds : Holds ('+' :: word) (startParams ps)
      (ofText ('+' :: word ++ ps.flatMap fun p => ' ' :: p)) :=
    ⟨[], by rw [tailText_startParams]; rfl⟩
  obtain ⟨buf, hrun, hbuf⟩ := loop_word ((ps.flatMap fun p => ' ' :: p).length + 2) chan ['+'] word
    (blank_plus hword) hstart hholds rfl
  have hlength : (ofText ('+' :: word ++ ps.flatMap fun p => ' ' :: p)).length =
      (ps.flatMap fun p => ' ' :: p).length + 2 + word.length := by
    simp [ofText]
    omega
  rw [hlength]
  exact ⟨_, buf, hrun, hbuf⟩

theorem mem_takers {c : Char} {word : CStr} : c ∈ takers word ↔ c ∈ word ∧ Takes c := by
  rw [takers, List.mem_filter, decide_eq_true_iff]

/-- The parameters that stand in a reply. -/
def ModeWord.params (w : ModeWord) (param : Char → {p : CStr // IsWord p}) : List CStr :=
  w.owners.map fun c => (param c).1

theorem ModeWord.text_eq (w : ModeWord) (param : Char → {p : CStr // IsWord p}) :
    w.text param = '+' :: w.word ++ (w.params param).flatMap fun p => ' ' :: p := by
  rw [ModeWord.text, ModeWord.params, List.flatMap_map]

theorem ModeWord.blank_params : ∀ p ∈ w.params param, ' ' ∉ p := by
  intro p hp
  obtain ⟨c, -, rfl⟩ := List.mem_map.1 hp
  exact (param c).2.2

theorem startParams_of_ne {ps : List CStr} (h : ps ≠ []) : startParams ps = some ps := if_neg h

/-- The record and the parameters that are left behind the mode word. -/
def ModeWord.read (w : ModeWord) (param : Char → {p : CStr // IsWord p}) (chan : Channel) :
    Channel × Option (List CStr) :=
  w.word.foldl readLetter ({ chan with mode := 0, asked := false }, startParams (w.params param))

theorem ModeWord.got324_text (w : ModeWord) (param : Char → {p : CStr // IsWord p})
    (findchan : CStr → Option Channel) (hme : IsWord me) (hchname : IsWord chname)
    (hfind : findchan chname = some chan) :
    ∃ n buf, got324 findchan (me ++ ' ' :: (chname ++ ' ' :: w.text param)) =
        (readModes (n + 2) ('+' :: w.word).length (w.read param chan).1 buf).map
          (fun chan' => .modes chan' chan.asked) ∧
      Holds ('+' :: w.word) (w.read param chan).2 buf := by
  obtain ⟨n, buf, hrun, hbuf⟩ := readModes_text w.blank w.blank_params
    { chan with mode := 0, asked := false }
  refine ⟨n, buf, ?_, hbuf⟩
  rw [got324_eq hme hchname hfind, w.text_eq]
  exact congrArg _ hrun

theorem ModeWord.read_mode (w : ModeWord) (param : Char → {p : CStr // IsWord p}) (chan : Channel) :
    (w.read param chan).1.mode = modeBits w.word :=
  (foldl_readLetter_mode _ w.word).trans BitVec.zero_or

theorem ModeWord.read_none (param : Char → {p : CStr // IsWord p}) (chan : Channel)
    (hnone : w.owners = []) :
    (w.read param chan).2 = none ∧ (w.read param chan).1.key = chan.key ∧
      (w.read param chan).1.maxmembers = chan.maxmembers := by
  have hstart : startParams (w.params param) = none := by rw [ModeWord.params, hnone]; rfl
  rw [ModeWord.read, hstart]
  exact foldl_readLetter_none _ w.word

theorem ModeWord.read_some (param : Char → {p : CStr // IsWord p}) (chan : Channel)
    (howners : w.owners ≠ []) :
    (w.read param chan).2 = some ((w.params param).drop (takers w.word).length) ∧
      (w.read param chan).1.key =
        (if 'k' ∈ w.word then
          ((w.owners[(takers w.word).idxOf 'k']?).map fun c => (param c).1).getD [] else chan.key) ∧
      (w.read param chan).1.maxmembers =
        if 'l' ∈ w.word then
          eggAtoi (((w.owners[(takers w.word).idxOf 'l']?).map fun c => (param c).1).getD [])
        else chan.maxmembers := by
  have hne : w.params param ≠ [] := by simpa [ModeWord.params] using howners
  rw [ModeWord.read, startParams_of_ne hne, ← List.getElem?_map, ← List.getElem?_map]
  exact foldl_readLetter_some w.nodup _ (w.params param)

theorem getElem?_idxOf {c : Char} {l : CStr} (h : c ∈ l) : l[l.idxOf c]? = some c := by
  rw [List.getElem?_eq_getElem (List.idxOf_lt_length_iff.2 h), List.getElem_idxOf]

/-- Where the parameters are those that `got324` asks for, the mode word is read rightly. -/
theorem ModeWord.read_of_ordered (h : w.Ordered) (param : Char → {p : CStr // IsWord p})
    (chan : Channel) :
    ((w.read param chan).2 = none ∨ (w.read param chan).2 = some []) ∧
      w.Right param chan (w.read param chan).1 := by
  by_cases hnone : w.owners = []
  · obtain ⟨hleft, hkey, hlimit⟩ := ModeWord.read_none param chan hnone
    refine ⟨.inl hleft, w.read_mode param chan, ?_, ?_⟩
    · rw [hkey, hnone, if_neg List.not_mem_nil]
    · rw [hlimit, hnone, if_neg List.not_mem_nil]
  · obtain ⟨hleft, hkey, hlimit⟩ := ModeWord.read_some param chan hnone
    have heq : w.owners = takers w.word := h.resolve_left hnone
    have hmem (c : Char) (hc : Takes c) : c ∈ w.word ↔ c ∈ w.owners := by
      rw [heq, mem_takers, and_iff_left hc]
    have hdrop : (w.params param).drop (takers w.word).length = [] := by
      rw [← heq, List.drop_eq_nil_iff, ModeWord.params, List.length_map]
    refine ⟨.inr (by rw [hleft, hdrop]), w.read_mode param chan, ?_, ?_⟩
    · rw [hkey]
      simp only [hmem 'k' (.inl rfl)]
      split
      · rename_i hk
        rw [← heq, getElem?_idxOf hk]
        rfl
      · rfl
    · rw [hlimit]
      simp only [hmem 'l' (.inr rfl)]
      split
      · rename_i hl
        rw [← heq, getElem?_idxOf hl]
        rfl
      · rfl

theorem ModeWord.readRightly_of_ordered (h : w.Ordered) : w.ReadRightly := by
  intro findchan me chname chan param hme hchname hfind
  obtain ⟨n, buf, hrun, hbuf⟩ := w.got324_text param findchan hme hchname hfind
  obtain ⟨hleft, hright⟩ := ModeWord.read_of_ordered h param chan
  rw [hrun, loop_end hbuf hleft]
  exact ⟨_, _, rfl, hright⟩

/-- Parameters to tell apart who was given which. -/
def digitParam (c : Char) : {p : CStr // IsWord p} :=
  if c = 'k' then ⟨['1'], by decide⟩ else if c = 'l' then ⟨['2'], by decide⟩ else ⟨['3'], by decide⟩

/-- The same, but an `l` for one letter. -/
def limitParam (d c : Char) : {p : CStr // IsWord p} :=
  if c = d then ⟨['l'], by decide⟩ else digitParam c

theorem digitParam_cases (c : Char) :
    (digitParam c).1 = ['1'] ∧ c = 'k' ∨ (digitParam c).1 = ['2'] ∧ c = 'l' ∨
      (digitParam c).1 = ['3'] ∧ ¬ Takes c := by
  unfold digitParam
  by_cases hk : c = 'k'
  · rw [if_pos hk]
    exact .inl ⟨rfl, hk⟩
  rw [if_neg hk]
  by_cases hl : c = 'l'
  · rw [if_pos hl]
    exact .inr (.inl ⟨rfl, hl⟩)
  rw [if_neg hl]
  exact .inr (.inr ⟨rfl, by rintro (h | h) <;> contradiction⟩)

theorem inert_digitParam (c : Char) :
    ∀ x ∈ (digitParam c).1, modeBit x = 0#32 ∧ ¬ Takes x := by
  obtain ⟨h, -⟩ | ⟨h, -⟩ | ⟨h, -⟩ := digitParam_cases c <;> rw [h] <;> decide

theorem eq_key_of_given {o : Option Char} {P : Prop} [Decidable P]
    (h : (o.map fun c => (digitParam c).1).getD [] = if P then (digitParam 'k').1 else ['9']) :
    o = some 'k' := by
  match o with
  | none =>
    split at h <;> cases h
  | some c =>
    obtain ⟨hc, rfl⟩ | ⟨hc, -⟩ | ⟨hc, -⟩ := digitParam_cases c
    · rfl
    · rw [Option.map_some, Option.getD_some, hc] at h
      split at h <;> exact absurd h (by decide)
    · rw [Option.map_some, Option.getD_some, hc] at h
      split at h <;> exact absurd h (by decide)

theorem eq_limit_of_given {o : Option Char} {P : Prop} [Decidable P]
    (h : eggAtoi ((o.map fun c => (digitParam c).1).getD []) =
      if P then eggAtoi (digitParam 'l').1 else 9) :
    o = some 'l' := by
  match o with
  | none =>
    split at h <;> exact absurd h (by decide)
  | some c =>
    obtain ⟨hc, -⟩ | ⟨hc, rfl⟩ | ⟨hc, -⟩ := digitParam_cases c
    · rw [Option.map_some, Option.getD_some, hc] at h
      split at h <;> exact absurd h (by decide)
    · rfl
    · rw [Option.map_some, Option.getD_some, hc] at h
      split at h <;> exact absurd h (by decide)

theorem ModeWord.read_of_readRightly (h : w.ReadRightly) (param : Char → {p : CStr // IsWord p})
    (chan : Channel) :
    ∃ n buf chan', readModes n ('+' :: w.word).length (w.read param chan).1 buf = some chan' ∧
      Holds ('+' :: w.word) (w.read param chan).2 buf ∧ w.Right param chan chan' := by
  have hword : IsWord "b".toList := by decide
  obtain ⟨n, buf, hrun, hbuf⟩ := w.got324_text param (fun _ => some chan) hword hword rfl
  obtain ⟨chan', recheck, hgot, hright⟩ := h (fun _ => some chan) _ _ chan param hword hword rfl
  rw [hgot] at hrun
  obtain ⟨chan₁, hread, heq⟩ := Option.map_eq_some_iff.1 hrun.symm
  cases heq
  exact ⟨n + 2, buf, chan', hread, hbuf, hright⟩

theorem ModeWord.owner_of_readRightly (h : w.ReadRightly) (hne : w.owners ≠ []) :
    ∀ c ∈ takers w.word, w.owners[(takers w.word).idxOf c]? = some c := by
  obtain ⟨n, buf, chan', hread, hbuf, -, hkey, hlimit⟩ :=
    ModeWord.read_of_readRightly h digitParam ⟨0, ['9'], 9, false⟩
  obtain ⟨hleft, hkey₁, hlimit₁⟩ := ModeWord.read_some digitParam ⟨0, ['9'], 9, false⟩ hne
  rw [hleft] at hbuf
  have hinert : ∀ p ∈ (w.params digitParam).drop (takers w.word).length,
      ∀ c ∈ p, modeBit c = 0#32 ∧ ¬ Takes c := by
    intro p hp
    obtain ⟨c, -, rfl⟩ := List.mem_map.1 (List.mem_of_mem_drop hp)
    exact inert_digitParam c
  have hsame := readModes_left hbuf hinert hread
  subst hsame
  rw [hkey₁] at hkey
  rw [hlimit₁] at hlimit
  intro c hc
  obtain ⟨hmem, rfl | rfl⟩ := mem_takers.1 hc
  · rw [if_pos hmem] at hkey
    exact eq_key_of_given hkey
  · rw [if_pos hmem] at hlimit
    exact eq_limit_of_given hlimit

theorem ModeWord.nodup_owners (w : ModeWord) : w.owners.Nodup :=
  w.nodup.sublist (List.filter_sublist.map _)

theorem nodup_takers (w : ModeWord) : (takers w.word).Nodup := w.nodup.sublist List.filter_sublist

theorem ModeWord.takers_prefix (h : w.ReadRightly) (hne : w.owners ≠ []) :
    takers w.word <+: w.owners := by
  rw [List.prefix_iff_getElem?]
  intro i hi
  have howner := ModeWord.owner_of_readRightly h hne _ (List.getElem_mem hi)
  rwa [(nodup_takers w).idxOf_getElem i hi] at howner

theorem ModeWord.ordered_of_readRightly (h : w.ReadRightly) : w.Ordered := by
  by_cases hne : w.owners = []
  · exact .inl hne
  obtain ⟨rest, hrest⟩ := ModeWord.takers_prefix h hne
  match rest with
  | [] => exact .inr (by rw [← hrest, List.append_nil])
  | d :: rest =>
    -- an `l` in the parameter of `d` is read as a mode
    have hnodup := w.nodup_owners
    rw [← hrest, List.nodup_append] at hnodup
    obtain ⟨-, hdrest, hdisjoint⟩ := hnodup
    have htakes : ∀ c ∈ d :: rest, ¬ Takes c := by
      intro c hc ht
      have howner : c ∈ w.owners := by
        rw [← hrest]
        exact List.mem_append_right _ hc
      obtain ⟨e, he, rfl⟩ := List.mem_map.1 howner
      have hword : e.1 ∈ w.word := List.mem_map_of_mem (List.mem_filter.1 he).1
      exact hdisjoint _ (mem_takers.2 ⟨hword, ht⟩) _ hc rfl
    obtain ⟨n, buf, chan', hread, hbuf, -, -, hlimit⟩ :=
      ModeWord.read_of_readRightly h (limitParam d) ⟨0, [], 9, false⟩
    obtain ⟨hleft, -, -⟩ := ModeWord.read_some (limitParam d) ⟨0, [], 9, false⟩ hne
    have hparams : (w.params (limitParam d)).drop (takers w.word).length =
        ['l'] :: rest.map fun c => (limitParam d c).1 := by
      have hlength : ((takers w.word).map fun c => (limitParam d c).1).length =
          (takers w.word).length := List.length_map _
      rw [ModeWord.params, ← hrest, List.map_append, ← hlength, List.drop_left, List.map_cons,
        limitParam, if_pos rfl]
    have hothers : ∀ p ∈ rest.map fun c => (limitParam d c).1, p = ['3'] := by
      intro p hp
      obtain ⟨c, hc, rfl⟩ := List.mem_map.1 hp
      have hcd : c ≠ d := fun heq => (List.nodup_cons.1 hdrest).1 (heq ▸ hc)
      rw [limitParam, if_neg hcd]
      obtain ⟨-, rfl⟩ | ⟨-, rfl⟩ | ⟨h3, -⟩ := digitParam_cases c
      · exact absurd (.inl rfl) (htakes _ (List.mem_cons_of_mem _ hc))
      · exact absurd (.inr rfl) (htakes _ (List.mem_cons_of_mem _ hc))
      · exact h3
    rw [hleft, hparams] at hbuf
    rw [readModes_left_limit (blank_plus w.blank) hbuf hothers hread] at hlimit
    have hl : limitParam d 'l' = ⟨['2'], by decide⟩ := by
      rw [limitParam, if_neg fun heq : 'l' = d => htakes d List.mem_cons_self (.inr heq.symm)]
      rfl
    rw [hl] at hlimit
    split at hlimit <;> exact absurd hlimit (by decide)

/-- What is written of a channel, read for one whose modes were reset, gives the same modes, key and
limit. -/
def Restored (chan : Channel) : Prop :=
  ∀ (findchan : CStr → Option Channel) (me chname : CStr) (chan₀ : Channel),
    IsWord me → IsWord chname → findchan chname = some chan₀ → chan₀.key = [] →
    chan₀.maxmembers = 0 →
    ∃ s text chan' recheck, getchanmode .zeroed chan = some s ∧ s.text = some text ∧
      got324 findchan (me ++ ' ' :: (chname ++ ' ' :: text)) = some (.modes chan' recheck) ∧
      chan'.mode = chan.mode ∧ chan'.key = chan.key ∧ chan'.maxmembers = chan.maxmembers

theorem not_restored (chan : Channel) : ¬ Restored chan := by
  have hword : IsWord "b".toList := by decide
  intro h
  obtain ⟨s, -, -, -, hwritten, -⟩ :=
    h (fun _ => some ⟨0, [], 0, false⟩) _ _ ⟨0, [], 0, false⟩ hword hword rfl rfl rfl
  rw [getchanmode_zeroed] at hwritten
  cases hwritten

/-- A mode word is read rightly, whatever its parameters hold, where no other letter has one; and no
channel is restored. -/
theorem got324_iff (w : ModeWord) (chan : Channel) :
    (w.ReadRightly ↔ w.Ordered) ∧ ¬ Restored chan :=
  ⟨⟨ModeWord.ordered_of_readRightly, ModeWord.readRightly_of_ordered⟩, not_restored chan⟩

end Reply

/-- A limit, and a throttle with a parameter before it. -/
def throttled : ModeWord := ⟨[('j', true), ('l', true)], by decide, by decide⟩

def throttleParam (c : Char) : {p : CStr // IsWord p} :=
  if c = 'j' then ⟨"5:10".toList, by decide⟩ else ⟨"20".toList, by decide⟩

/-- The limit is taken from the throttle. -/
theorem not_got324 :
    ¬ ((∀ w : ModeWord, w.ReadRightly) ∧ ∀ chan : Channel, Restored chan) := by
  rintro ⟨h, -⟩
  have hword : IsWord "b".toList := by decide
  obtain ⟨chan', recheck, hgot, -, -, hlimit⟩ :=
    h throttled (fun _ => some ⟨0, [], 0, false⟩) _ _ _ throttleParam hword hword rfl
  have hrun : got324 (fun _ => some ⟨0, [], 0, false⟩) ("b".toList ++ ' ' :: ("b".toList ++
      ' ' :: throttled.text throttleParam)) = some (.modes ⟨0, [], 5, false⟩ false) := by
    decide +kernel
  rw [hrun] at hgot
  cases hgot
  exact absurd hlimit (by decide)

end Eggdrop.ModeReply
