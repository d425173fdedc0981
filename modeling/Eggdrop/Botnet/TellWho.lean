import Eggdrop.Base.CString
import Mathlib.Data.List.Infix
import Mathlib.Algebra.Order.Group.Nat

/-!
# TellWho — the channels a bot names to another one (src/botcmd.c)

`remote_tell_who` answers a `who` from another bot.  The names of the channels are collected in a
line of at most 449 characters; a line that is full is sent, and the next one is to begin with a
10-space indent.  The line is not emptied when it is sent.

* `loop_of_fits`: as long as all fits on one line, that is the line.
* `loop_of_not_fits`: and otherwise a second line is sent, which begins like the first.
* `tellWho_iff`: when every channel is named once.
-/

namespace Eggdrop.Botnet.TellWho

open List

/-- `struct chanset_t`, as far as it is looked at here. -/
structure Chan where
  dname : CStr
  secret : Bool
  inactive : Bool
deriving DecidableEq, Repr

def Chan.visible (c : Chan) : Bool := !c.secret && !c.inactive

/-- botnet_send_priv truncates at 450. -/
def ssize : ℕ := 449

def head : CStr := "Channels: ".toList

/-- The 10-space continuation indent. -/
def indent : CStr := "          ".toList

/-- `op_strbuf_truncate`. -/
def truncate (line : CStr) (n : ℕ) : CStr := line.take n

/-- A name behind the line; overlong names are truncated. -/
def putName (line name : CStr) (more : Bool) : CStr :=
  let line := line ++ name
  if ssize < line.length then truncate line (ssize - if more then 5 else 4) ++ " ...".toList else line

/-- `", #chan"` fits; if next chan follows, also need room for `','`. -/
def roomFor (len l : ℕ) (more : Bool) : Bool := decide (len + l + (if more then 3 else 2) ≤ ssize)

/-- The loop over the channels: the line under way, and the lines sent. -/
def loop : CStr → List CStr → List Chan → CStr × List CStr
  | line, sent, [] => (line, sent)
  | line, sent, c :: cs =>
    if c.visible then
      if 10 < line.length then
        if roomFor line.length c.dname.length (!cs.isEmpty) then
          loop (putName (line ++ ", ".toList) c.dname (!cs.isEmpty)) sent cs
        else
          -- flush this line
          let line := line ++ ",".toList
          loop (putName (line ++ indent) c.dname (!cs.isEmpty)) (sent ++ [line]) cs
      else loop (putName line c.dname (!cs.isEmpty)) sent cs
    else loop line sent cs

/-- The lines about the channels that `remote_tell_who` sends; `noChannels` is BOT_NOCHANNELS. -/
def tellWho (noChannels : CStr) (chanset : List Chan) : List CStr :=
  let r := loop head [] chanset
  r.2 ++ [if 10 < r.1.length then r.1 else noChannels]

/-! ### What is asked of the lines -/

/-- The names of the channels that are neither secret nor inactive. -/
def names (chanset : List Chan) : List CStr := (chanset.filter Chan.visible).map Chan.dname

/-- Names with a separator between any two. -/
def join (g : List CStr) : CStr := [',', ' '].intercalate g

/-- A line for each group of names. -/
def linesOf : List (List CStr) → List CStr
  | [] => []
  | g :: gs => (head ++ join g) :: gs.map fun g => indent ++ join g

/-- Every channel is named once, in lines of at most 449 characters with a separator between any two
names and nowhere else; without a channel to name that is said. -/
def NamesAll (noChannels : CStr) (chanset : List Chan) (sent : List CStr) : Prop :=
  if names chanset = [] then sent = [noChannels]
  else ∃ groups : List (List CStr), groups.flatten = names chanset ∧ (∀ g ∈ groups, g ≠ []) ∧
    sent = linesOf groups ∧ ∀ line ∈ sent, line.length ≤ ssize

/-- The last channel of the list is one that is named. -/
def lastVisible (chanset : List Chan) : Bool := chanset.getLast?.any Chan.visible

/-- All names fit on one line; where there are several and a channel follows that is not named, with
room for one character more. -/
def FitsOne (chanset : List Chan) : Prop :=
  (head ++ join (names chanset)).length ≤ ssize ∧
    (2 ≤ (names chanset).length → lastVisible chanset = false →
      (head ++ join (names chanset)).length < ssize)

/-! ### One line -/

section OneLine

/-- What follows the first name. -/
def more (ns : List CStr) : CStr := ns.flatMap (", ".toList ++ ·)

theorem join_cons (n : CStr) (ns : List CStr) : join (n :: ns) = n ++ more ns := by
  induction ns generalizing n with
  | nil => simp [join, more]
  | cons m ns ih =>
    have hcons : join (n :: m :: ns) = n ++ (", ".toList ++ join (m :: ns)) := by
      simp [join, intercalate, intersperse]
    rw [hcons, ih]
    simp [more]

theorem names_cons (c : Chan) (cs : List Chan) :
    names (c :: cs) = if c.visible then c.dname :: names cs else names cs := by
  unfold names
  rw [filter_cons]
  split <;> rfl

theorem more_cons (n : CStr) (ns : List CStr) : more (n :: ns) = ", ".toList ++ n ++ more ns := rfl

/-- There is room for every name on the line under way. -/
def FitsFrom : ℕ → List Chan → Prop
  | _, [] => True
  | len, c :: cs =>
    if c.visible then
      roomFor len c.dname.length (!cs.isEmpty) = true ∧ FitsFrom (len + 2 + c.dname.length) cs
    else FitsFrom len cs

theorem putName_of_le {line name : CStr} (h : (line ++ name).length ≤ ssize) (more : Bool) :
    putName line name more = line ++ name :=
  if_neg (Nat.not_lt.2 h)

theorem loop_of_fits {line : CStr} {sent : List CStr} {cs : List Chan} (hlen : 10 < line.length)
    (h : FitsFrom line.length cs) : loop line sent cs = (line ++ more (names cs), sent) := by
  induction cs generalizing line with
  | nil =>
    rw [loop, names, filter_nil, map_nil, more, flatMap_nil, append_nil]
  | cons c cs ih =>
    rw [FitsFrom] at h
    rw [loop, names_cons]
    split
    · next hc =>
      rw [if_pos hc] at h
      have hput : (line ++ ", ".toList ++ c.dname).length = line.length + 2 + c.dname.length := by
        rw [length_append, length_append]
        rfl
      have hroom := h.1
      rw [roomFor, decide_eq_true_iff] at hroom
      have hfits : (line ++ ", ".toList ++ c.dname).length ≤ ssize := by
        rw [hput]
        split at hroom <;> omega
      rw [if_pos h.1, putName_of_le hfits, ih (by omega) (by rw [hput]; exact h.2),
        more_cons]
      simp
    · next hc =>
      rw [if_neg hc] at h
      exact ih hlen h

/-! ### A second line -/

theorem head_prefix_putName {line : CStr} (h : head <+: line) (name : CStr)
    (more : Bool) : head <+: putName line name more := by
  have happ : head <+: line ++ name := h.trans (prefix_append _ _)
  unfold putName
  dsimp only
  split
  · refine (?_ : head <+: _).trans (prefix_append _ _)
    unfold truncate
    refine prefix_take_iff.2 ⟨happ, ?_⟩
    have : head.length = 10 := rfl
    rw [this, ssize]
    split <;> omega
  · exact happ

theorem length_putName {line : CStr} (hlen : 10 < line.length) (name : CStr) (more : Bool) :
    10 < (putName line name more).length := by
  unfold putName
  dsimp only
  split
  · next h =>
    rw [length_append, truncate, length_take]
    rw [ssize] at h ⊢
    split <;> omega
  · rw [length_append]
    omega

/-- Every line begins like the first one, and a line that has been sent stays sent. -/
theorem loop_spec {line : CStr} {sent : List CStr} {cs : List Chan} (hlen : 10 < line.length)
    (hline : head <+: line) (hsent : ∀ x ∈ sent, head <+: x) :
    10 < (loop line sent cs).1.length ∧ head <+: (loop line sent cs).1 ∧
      (∀ x ∈ (loop line sent cs).2, head <+: x) ∧ sent.length ≤ (loop line sent cs).2.length := by
  induction cs generalizing line sent with
  | nil => exact ⟨hlen, hline, hsent, Nat.le_refl _⟩
  | cons c cs ih =>
    have happ : ∀ t : CStr, head <+: line ++ t := fun t => hline.trans (prefix_append _ _)
    have hlen' : ∀ t : CStr, 10 < (line ++ t).length := by
      intro t
      rw [length_append]
      omega
    rw [loop]
    split
    · split
      · exact ih (length_putName (hlen' _) _ _) (head_prefix_putName (happ _) _ _)
          hsent
      · have hput : 10 < (line ++ ",".toList ++ indent).length := by
          rw [append_assoc]
          exact hlen' _
        have hhead : head <+: line ++ ",".toList ++ indent := by
          rw [append_assoc]
          exact happ _
        have hall : ∀ x ∈ sent ++ [line ++ ",".toList], head <+: x := by
          intro x hx
          rcases mem_append.1 hx with hx | hx
          · exact hsent x hx
          · rw [mem_singleton.1 hx]
            exact happ _
        have h := ih (length_putName hput c.dname (!cs.isEmpty))
          (head_prefix_putName hhead c.dname (!cs.isEmpty)) hall
        rw [length_append] at h
        exact ⟨h.1, h.2.1, h.2.2.1, Nat.le_trans (Nat.le_add_right _ _) h.2.2.2⟩
    · exact ih hlen hline hsent

theorem loop_of_not_fits {line : CStr} {sent : List CStr} {cs : List Chan} (hlen : 10 < line.length)
    (hline : head <+: line) (hsent : ∀ x ∈ sent, head <+: x) (h : ¬ FitsFrom line.length cs) :
    sent.length < (loop line sent cs).2.length := by
  induction cs generalizing line with
  | nil => exact absurd trivial h
  | cons c cs ih =>
    rw [FitsFrom] at h
    have happ : ∀ t : CStr, head <+: line ++ t := fun t => hline.trans (prefix_append _ _)
    have hlen' : ∀ t : CStr, 10 < (line ++ t).length := by
      intro t
      rw [length_append]
      omega
    rw [loop]
    split
    · next hc =>
      rw [if_pos hc] at h
      split
      · next hroom =>
        have hput : (line ++ ", ".toList ++ c.dname).length = line.length + 2 + c.dname.length := by
          rw [length_append, length_append]
          rfl
        have hfits : (line ++ ", ".toList ++ c.dname).length ≤ ssize := by
          rw [roomFor, decide_eq_true_iff] at hroom
          rw [hput]
          split at hroom <;> omega
        rw [putName_of_le hfits]
        refine ih ?_ ?_ fun hf => h ⟨hroom, ?_⟩
        · rw [append_assoc]
          exact hlen' _
        · rw [append_assoc]
          exact happ _
        · rw [hput] at hf
          exact hf
      · -- the line is sent
        have hput : 10 < (line ++ ",".toList ++ indent).length := by
          rw [append_assoc]
          exact hlen' _
        have hhead : head <+: line ++ ",".toList ++ indent := by
          rw [append_assoc]
          exact happ _
        have hall : ∀ x ∈ sent ++ [line ++ ",".toList], head <+: x := by
          intro x hx
          rcases mem_append.1 hx with hx | hx
          · exact hsent x hx
          · rw [mem_singleton.1 hx]
            exact happ _
        have hspec := @loop_spec _ _ cs (length_putName hput c.dname (!cs.isEmpty))
          (head_prefix_putName hhead c.dname (!cs.isEmpty)) hall
        rw [length_append, length_singleton] at hspec
        have := hspec.2.2.2
        exact this
    · next hc =>
      rw [if_neg hc] at h
      exact ih hlen hline h

/-! ### When all fits -/

theorem names_eq_nil_of_isEmpty {cs : List Chan} (h : cs = []) : names cs = [] := by
  rw [h]
  rfl

theorem lastVisible_cons (c : Chan) {cs : List Chan} (h : cs ≠ []) :
    lastVisible (c :: cs) = lastVisible cs := by
  unfold lastVisible
  rw [getLast?_cons_of_ne_nil h]

theorem names_ne_nil_of_lastVisible {cs : List Chan} (h : lastVisible cs = true) : names cs ≠ [] := by
  unfold lastVisible at h
  obtain ⟨c, hc, hv⟩ := (Option.any_eq_true _ _).1 h
  intro hnil
  have hmem : c.dname ∈ names cs :=
    mem_map.2 ⟨c, mem_filter.2 ⟨mem_of_getLast? hc, hv⟩, rfl⟩
  rw [hnil] at hmem
  exact absurd hmem not_mem_nil

/-- The checks of the loop come down to one. -/
theorem fitsFrom_iff {len : ℕ} {cs : List Chan} :
    FitsFrom len cs ↔
      (names cs ≠ [] → len + (more (names cs)).length + (if lastVisible cs then 0 else 1) ≤ ssize) := by
  induction cs generalizing len with
  | nil => exact iff_of_true trivial fun h => absurd rfl h
  | cons c cs ih =>
    rw [FitsFrom, names_cons]
    by_cases hc : c.visible = true
    · rw [if_pos hc, if_pos hc, ih, more_cons]
      have hlen : (", ".toList ++ c.dname ++ more (names cs)).length =
          2 + c.dname.length + (more (names cs)).length := by
        rw [length_append, length_append]
        rfl
      rw [hlen, roomFor, decide_eq_true_iff]
      cases cs with
      | nil =>
        have hlast : lastVisible [c] = true := hc
        rw [hlast]
        simp [names, more]
        omega
      | cons d cs =>
        rw [lastVisible_cons c (cons_ne_nil d cs)]
        rw [isEmpty_cons, Bool.not_false, if_pos rfl]
        by_cases hnil : names (d :: cs) = []
        · have hlast : lastVisible (d :: cs) = false := by
            by_contra hl
            exact names_ne_nil_of_lastVisible (Bool.eq_true_of_not_eq_false hl) hnil
          rw [hnil, hlast]
          simp [more]
          omega
        · have hmore : 2 ≤ (more (names (d :: cs))).length := by
            obtain ⟨n, ns, hn⟩ := exists_cons_of_ne_nil hnil
            rw [hn, more_cons, length_append, length_append]
            show 2 ≤ 2 + _ + _
            omega
          simp only [hnil, ne_eq, not_false_eq_true, forall_true_left, reduceCtorEq]
          constructor
          · rintro ⟨-, h⟩
            omega
          · intro h
            refine ⟨?_, by omega⟩
            split at h <;> omega
    · have hne : cs = [] → names cs = [] := names_eq_nil_of_isEmpty
      rw [if_neg hc, if_neg hc, ih]
      by_cases hcs : cs = []
      · subst hcs
        exact iff_of_true (fun h => absurd rfl h) fun h => absurd rfl h
      · rw [lastVisible_cons c hcs]

end OneLine

/-! ### When every channel is named once -/

section Main

theorem first_visible (chanset : List Chan) :
    names chanset = [] ∨ ∃ hs c cs, chanset = hs ++ c :: cs ∧ names hs = [] ∧ c.visible = true := by
  induction chanset with
  | nil => exact .inl rfl
  | cons d ds ih =>
    by_cases hd : d.visible = true
    · exact .inr ⟨[], d, ds, rfl, rfl, hd⟩
    · obtain hnil | ⟨hs, c, cs, rfl, hhs, hc⟩ := ih
      · left
        rw [names_cons, if_neg hd, hnil]
      · refine .inr ⟨d :: hs, c, cs, rfl, ?_, hc⟩
        rw [names_cons, if_neg hd, hhs]

theorem loop_hidden {hs : List Chan} (h : names hs = []) (line : CStr) (sent : List CStr)
    (cs : List Chan) : loop line sent (hs ++ cs) = loop line sent cs := by
  induction hs with
  | nil => rfl
  | cons d ds ih =>
    rw [names_cons] at h
    by_cases hd : d.visible = true
    · rw [if_pos hd] at h
      cases h
    · rw [if_neg hd] at h
      rw [cons_append, loop, if_neg hd, ih h]

theorem names_append (hs cs : List Chan) : names (hs ++ cs) = names hs ++ names cs := by
  rw [names, filter_append, map_append]
  rfl

theorem lastVisible_append (hs : List Chan) (c : Chan) (cs : List Chan) :
    lastVisible (hs ++ c :: cs) = lastVisible (c :: cs) := by
  induction hs with
  | nil => rfl
  | cons d ds ih => rw [cons_append, lastVisible_cons d (by simp), ih]

theorem tellWho_first (noChannels : CStr) {hs cs : List Chan} {c : Chan} (hhs : names hs = [])
    (hc : c.visible = true) :
    tellWho noChannels (hs ++ c :: cs) =
      (loop (putName head c.dname (!cs.isEmpty)) [] cs).2 ++
        [if 10 < (loop (putName head c.dname (!cs.isEmpty)) [] cs).1.length then
          (loop (putName head c.dname (!cs.isEmpty)) [] cs).1 else noChannels] := by
  unfold tellWho
  rw [loop_hidden hhs, loop, if_pos hc, if_neg (by decide)]

theorem not_head_prefix_indent (t : CStr) : ¬ head <+: indent ++ t := by
  rintro ⟨u, hu⟩
  have := congrArg head? hu
  revert this
  show ¬ (some 'C' = some ' ')
  decide

theorem not_namesAll_of_second {noChannels : CStr} {chanset : List Chan} {sent : List CStr}
    (hne : names chanset ≠ []) (hlen : 2 ≤ sent.length) (hhead : ∀ line ∈ sent, head <+: line) :
    ¬ NamesAll noChannels chanset sent := by
  intro h
  rw [NamesAll, if_neg hne] at h
  obtain ⟨groups, -, -, rfl, -⟩ := h
  cases groups with
  | nil => exact absurd hlen (by simp [linesOf])
  | cons g gs =>
    cases gs with
    | nil => exact absurd hlen (by simp [linesOf])
    | cons g' gs =>
      refine not_head_prefix_indent (join g') (hhead _ ?_)
      exact mem_cons_of_mem _ (mem_map.2 ⟨g', mem_cons_self, rfl⟩)

theorem not_namesAll_of_long {noChannels n : CStr} {ns : List CStr} {chanset : List Chan}
    {sent : List CStr} (hnames : names chanset = n :: ns) (hlong : ssize < 10 + n.length) :
    ¬ NamesAll noChannels chanset sent := by
  intro h
  rw [NamesAll, if_neg (by rw [hnames]; exact cons_ne_nil n ns), hnames] at h
  obtain ⟨groups, hflat, hne, rfl, hlimit⟩ := h
  cases groups with
  | nil => cases hflat
  | cons g gs =>
    obtain ⟨m, ms, rfl⟩ := exists_cons_of_ne_nil (hne g mem_cons_self)
    obtain rfl : m = n := (cons.inj hflat).1
    have := hlimit _ mem_cons_self
    rw [join_cons, length_append, length_append] at this
    have hhead : head.length = 10 := rfl
    omega

variable {noChannels : CStr} {chanset : List Chan}

theorem namesAll_iff_of_first {hs cs : List Chan} {c : Chan} (hhs : names hs = [])
    (hc : c.visible = true) (hname : c.dname ≠ []) :
    NamesAll noChannels (hs ++ c :: cs) (tellWho noChannels (hs ++ c :: cs)) ↔
      FitsOne (hs ++ c :: cs) := by
  have hnames : names (hs ++ c :: cs) = c.dname :: names cs := by
    rw [names_append, hhs, names_cons, if_pos hc, nil_append]
  have hline : (head ++ join (names (hs ++ c :: cs))).length =
      10 + c.dname.length + (more (names cs)).length := by
    rw [hnames, join_cons, length_append, length_append]
    show 10 + _ = _
    omega
  have hpos := length_pos_iff.2 hname
  rcases Nat.lt_or_ge ssize (10 + c.dname.length) with hlong | hfits
  · refine iff_of_false (not_namesAll_of_long hnames hlong) fun h => ?_
    have := h.1
    omega
  · have hput : putName head c.dname (!cs.isEmpty) = head ++ c.dname := by
      refine putName_of_le ?_ _
      rw [length_append]
      exact hfits
    have hlen : (head ++ c.dname).length = 10 + c.dname.length := by
      rw [length_append]
      rfl
    have hone : FitsOne (hs ++ c :: cs) ↔ FitsFrom (head ++ c.dname).length cs := by
      rw [fitsFrom_iff, hlen, FitsOne, hline, hnames, lastVisible_append, length_cons]
      constructor
      · rintro ⟨hall, hmore⟩ hne
        have h2 : 2 ≤ (names cs).length + 1 := by
          have := length_pos_iff.2 hne
          omega
        have hcs : cs ≠ [] := fun h => hne (names_eq_nil_of_isEmpty h)
        rw [lastVisible_cons c hcs] at hmore
        cases hl : lastVisible cs with
        | true => exact hall
        | false => exact hmore h2 hl
      · intro h
        by_cases hne : names cs = []
        · rw [hne]
          exact ⟨hfits, fun h2 => absurd h2 (by simp)⟩
        · have hcs : cs ≠ [] := fun h => hne (names_eq_nil_of_isEmpty h)
          have h := h hne
          rw [lastVisible_cons c hcs]
          refine ⟨by omega, fun _ hl => ?_⟩
          rw [hl] at h
          exact h
    rw [hone, tellWho_first noChannels hhs hc, hput]
    by_cases hfit : FitsFrom (head ++ c.dname).length cs
    · rw [loop_of_fits (by omega) hfit]
      refine iff_of_true ?_ hfit
      have h10 : 10 < (head ++ c.dname ++ more (names cs)).length := by
        rw [length_append]
        omega
      dsimp only
      rw [if_pos h10, nil_append, NamesAll, if_neg (by rw [hnames]; exact cons_ne_nil _ _)]
      have hsent : [head ++ c.dname ++ more (names cs)] = linesOf [names (hs ++ c :: cs)] := by
        rw [hnames, linesOf, join_cons, append_assoc]
        rfl
      refine ⟨[names (hs ++ c :: cs)], flatten_singleton, ?_, hsent, ?_⟩
      · intro g hg
        rw [mem_singleton.1 hg, hnames]
        exact cons_ne_nil _ _
      · intro line hl
        rw [mem_singleton.1 hl, append_assoc, ← join_cons, ← hnames]
        exact (hone.2 hfit).1
    · refine iff_of_false ?_ hfit
      have hhead : head <+: head ++ c.dname := prefix_append _ _
      have hnone : ∀ x ∈ ([] : List CStr), head <+: x := fun x hx => absurd hx not_mem_nil
      have hspec := @loop_spec _ _ cs (by omega : 10 < (head ++ c.dname).length) hhead hnone
      have hmore := loop_of_not_fits (by omega : 10 < (head ++ c.dname).length) hhead hnone hfit
      rw [if_pos hspec.1]
      refine not_namesAll_of_second (by rw [hnames]; exact cons_ne_nil _ _) ?_ fun line hl => ?_
      · rw [length_append, length_singleton]
        exact Nat.succ_le_succ hmore
      · rcases mem_append.1 hl with hl | hl
        · exact hspec.2.2.1 line hl
        · rw [mem_singleton.1 hl]
          exact hspec.2.1

theorem namesAll_iff (hname : ∀ c ∈ chanset, c.dname ≠ []) :
    NamesAll noChannels chanset (tellWho noChannels chanset) ↔ FitsOne chanset := by
  obtain hnil | ⟨hs, c, cs, rfl, hhs, hc⟩ := first_visible chanset
  · have hloop := loop_hidden hnil head [] []
    rw [append_nil] at hloop
    refine iff_of_true ?_ ?_
    · rw [NamesAll, if_pos hnil, tellWho, hloop]
      rfl
    · rw [FitsOne, hnil]
      exact ⟨by decide, fun h2 => absurd h2 (by decide)⟩
  · exact namesAll_iff_of_first hhs hc (hname c (mem_append_right _ mem_cons_self))

/-- For all channels, whose names are not empty: `remote_tell_who` names each that is neither secret
nor inactive once, in lines that keep the limit, if and only if they fit on one line. -/
theorem tellWho_iff (noChannels : CStr) (chanset : List Chan) (hname : ∀ c ∈ chanset, c.dname ≠ []) :
    NamesAll noChannels chanset (tellWho noChannels chanset) ↔ FitsOne chanset :=
  namesAll_iff hname

theorem tellWho_two :
    NamesAll "None.".toList [⟨"#a".toList, false, false⟩, ⟨"#b".toList, true, false⟩]
      (tellWho "None.".toList [⟨"#a".toList, false, false⟩, ⟨"#b".toList, true, false⟩]) ↔
      FitsOne [⟨"#a".toList, false, false⟩, ⟨"#b".toList, true, false⟩] :=
  tellWho_iff "None.".toList _ (by decide)

/-- Six channels with long names, the last of which does not fit on the line. -/
def manyChannels : List Chan := (range 6).map fun i => ⟨'#' :: replicate 79 (Nat.digitChar i), false, false⟩

theorem not_tellWho_many : ¬ NamesAll "None.".toList manyChannels (tellWho "None.".toList manyChannels) := by
  rw [namesAll_iff (by decide)]
  intro h
  exact absurd h.1 (by decide +kernel)

end Main

end Eggdrop.Botnet.TellWho
