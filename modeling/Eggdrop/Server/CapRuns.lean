import Eggdrop.Lib.Ensures
import Eggdrop.Lib.HtabFiled
import Eggdrop.Lib.ListEdit
import Eggdrop.Server.Caps
import Mathlib.Data.Set.Insert
import Mathlib.Order.BooleanAlgebra.Set

/-!
# CapRuns — what is negotiated with the server

The records are those that the server has named, once each, and the enabled ones are those that it has
acknowledged.

* `findCapability_eq`: the table is asked in place of the vector.
* `addCapabilities_holds`, `delCapabilities_holds`, `gotList_holds`, `gotAck_holds`: what the lines
  do to the names.
* `Both.Inv.step`, `negotiated_throughout`: whole runs.
-/

namespace Eggdrop.Server.Caps

open List Htab ListEdit

/-! ### What the server says -/

/-- The names, up to case, that the server has told, those that are in force, and those of a reply to
`CAP LIST` that goes on. -/
structure Negotiation where
  known : Set CStr
  acked : Set CStr
  listing : Option (Set CStr)

/-- The names of a list of capabilities. -/
def named (toks : List CStr) : Set CStr := {x | ∃ tok ∈ toks, istrFold tok = x}

/-- The names of a list of capabilities with values. -/
def namedCaps (toks : List CStr) : Set CStr := named (toks.map capName)

/-- A token of `CAP ACK`: a capability that there is comes into force, or goes. -/
def ackName (known : Set CStr) (acked : Set CStr) (tok : CStr) : Set CStr :=
  match ackToken tok with
  | (true, name) => acked \ {istrFold name}
  | (false, name) => acked ∪ ({istrFold name} ∩ known)

namespace Negotiation

def init : Negotiation := ⟨∅, ∅, none⟩

/-- A line: the last line of a list says that what all its lines name is in force, and no more. -/
def line (l : Line) (n : Negotiation) : Negotiation :=
  let toks := strtok ' ' l.text
  if l.cmd = "LS".toList ∨ l.cmd = "NEW".toList then { n with known := n.known ∪ namedCaps toks }
  else if l.cmd = "LIST".toList then
    let listed := n.listing.getD ∅ ∪ named toks
    if l.multiline then { n with listing := some listed }
    else { n with acked := listed ∩ n.known, listing := none }
  else if l.cmd = "ACK".toList then { n with acked := toks.foldl (ackName n.known) n.acked }
  else if l.cmd = "DEL".toList then
    { n with known := n.known \ named toks, acked := n.acked \ named toks }
  else n

def step (n : Negotiation) : Event → Negotiation
  | .cap _ msg => n.line (capLine msg)
  | .mechs msg => { n with known := n.known ∪ namedCaps (strtok ' ' (mechanisms msg)) }
  | .disconnect => init

end Negotiation

/-- The bot and the server. -/
abbrev Both := State × Negotiation

def Both.step (s : Both) (e : Event) : Except Fault Both :=
  (s.1.step e).map fun s' => (s', s.2.step e)

def Both.init : Both := (State.init, Negotiation.init)

/-- Addresses and names. -/
def State.recs (s : State) : List (ℕ × CStr) := s.vec.map fun c => (c.ptr, c.name)

/-- The vector and the table have the same records, no name is there twice, the names are those that the
server has told, and, but for the middle of a list, the enabled ones are those in force. -/
structure Agrees (s : Both) : Prop where
  same : Filed istrHash istrFold s.1.recs s.1.dict
  once : (s.1.vec.map fun c => istrFold c.name).Nodup
  known : ∀ x, x ∈ s.2.known ↔ ∃ c ∈ s.1.vec, istrFold c.name = x
  enabled : s.2.listing = none → ∀ c ∈ s.1.vec, c.enabled = true ↔ istrFold c.name ∈ s.2.acked

/-! ### The condition -/

/-- The token acknowledges SASL, and `sasl_authenticate_initial` gives up. -/
def GivesUp (cfg : Settings) (s : State) (tok : CStr) : Prop :=
  (ackToken tok).1 = false ∧ cfg.sasl = true ∧ ∃ c ∈ s.vec, istrFold c.name = istrFold (ackToken tok).2 ∧
    strcaseEq c.name "sasl".toList = true ∧ (cfg.sasl_authenticate_initial c.values).refused = true

/-- The names fit into a record. -/
def Fits (toks : List CStr) : Prop := ∀ tok ∈ toks, (capName tok).length ≤ capmax

/-- What a line must be like.  A list in several lines names everything again in its last one. -/
def FineLine (cfg : Settings) (s : Both) (l : Line) : Prop :=
  let toks := strtok ' ' l.text
  if l.cmd = "LS".toList ∨ l.cmd = "NEW".toList then Fits toks
  else if l.cmd = "LIST".toList then
    l.text.head? ≠ some '*' ∧
      (l.multiline = false → s.2.listing.getD ∅ ∩ s.2.known ⊆ named toks)
  else if l.cmd = "ACK".toList then
    ∀ pre tok post, toks = pre ++ tok :: post → GivesUp cfg s.1 tok →
      ∀ t ∈ post, istrFold (ackToken t).2 ∉ s.2.known
  else if l.cmd = "DEL".toList then
    ∀ tok ∈ toks, ∀ c ∈ s.1.vec, istrFold c.name = istrFold tok → strcaseEq tok c.name = true
  else True

def Fine (s : Both) : Event → Prop
  | .cap cfg msg => FineLine cfg s (capLine msg)
  | .mechs msg =>
    Fits (strtok ' ' (mechanisms msg)) ∧ (s.2.listing = none → "sasl".toList ∉ s.2.acked)
  | .disconnect => True

/-! ### Records -/

namespace State

/-- The names of all records, and of the enabled ones. -/
def names (s : State) : Set CStr := {x | ∃ c ∈ s.vec, istrFold c.name = x}

def on (s : State) : Set CStr := {x | ∃ c ∈ s.vec, c.enabled = true ∧ istrFold c.name = x}

/-- The invariant, with the names and those that are enabled. -/
structure Holds (s : State) (known on : Set CStr) : Prop where
  same : Filed istrHash istrFold s.recs s.dict
  once : (s.vec.map fun c => istrFold c.name).Nodup
  ptrs : (s.vec.map (·.ptr)).Nodup
  fresh : ∀ c ∈ s.vec, c.ptr < s.next
  status : s.multistatus = false
  names_eq : s.names = known
  on_eq : s.on = on

variable {s : State} {K E : Set CStr}

theorem on_subset (s : State) : s.on ⊆ s.names := by
  rintro x ⟨c, hc, -, hx⟩
  exact ⟨c, hc, hx⟩

theorem Holds.subset (h : s.Holds K E) : E ⊆ K := h.on_eq ▸ h.names_eq ▸ s.on_subset

theorem reads (hptrs : (s.vec.map (·.ptr)).Nodup) : Reads s.nameAt s.recs := by
  intro r hr
  obtain ⟨c, hc, rfl⟩ := mem_map.1 hr
  rw [nameAt, find?_key hptrs hc]
  rfl

theorem recs_once (honce : (s.vec.map fun c => istrFold c.name).Nodup) :
    (s.recs.map fun r => istrFold r.2).Nodup := by
  rw [recs, map_map]
  exact honce

theorem Holds.eq_of_fold (h : s.Holds K E) {c c' : Capability} (hc : c ∈ s.vec) (hc' : c' ∈ s.vec)
    (heq : istrFold c.name = istrFold c'.name) : c = c' :=
  inj_on_of_nodup_map h.once hc hc' heq

end State

variable {s : State} {K E : Set CStr}

open State

theorem findCapability_eq (h : s.Holds K E) (capname : CStr) :
    findCapability capname s =
      .ok (s.vec.find? fun c => istrFold c.name = istrFold capname) := by
  rw [findCapability, h.same.get_eq (reads h.ptrs) (recs_once h.once), recs, find?_map]
  rcases hfind : s.vec.find? fun c => istrFold c.name = istrFold capname with _ | c
  · have : s.vec.find? ((fun r : ℕ × CStr => decide (istrFold r.2 = istrFold capname)) ∘
        fun c => (c.ptr, c.name)) = none := hfind
    rw [this, hfind]
    rfl
  · have : s.vec.find? ((fun r : ℕ × CStr => decide (istrFold r.2 = istrFold capname)) ∘
        fun c => (c.ptr, c.name)) = some c := hfind
    rw [this]
    show (orFreed (s.vec.find? (·.ptr == c.ptr)) >>= _) = _
    rw [find?_key h.ptrs (mem_of_find?_eq_some hfind), hfind]
    rfl

/-- A lookup finds the record of the name, if there is one. -/
theorem findCapability_spec (h : s.Holds K E) (capname : CStr) :
    (findCapability capname s = .ok none ∧ istrFold capname ∉ K) ∨
      ∃ c ∈ s.vec, findCapability capname s = .ok (some c) ∧ istrFold c.name = istrFold capname ∧
        istrFold capname ∈ K := by
  rw [findCapability_eq h, ← h.names_eq]
  rcases hfind : s.vec.find? fun c => istrFold c.name = istrFold capname with _ | c
  · refine .inl ⟨congrArg Except.ok hfind, ?_⟩
    rintro ⟨c, hc, heq⟩
    exact find?_eq_none.1 hfind c hc (decide_eq_true heq)
  · have hc := mem_of_find?_eq_some hfind
    have heq : istrFold c.name = istrFold capname := by simpa using find?_some hfind
    exact .inr ⟨c, hc, congrArg Except.ok hfind, heq, c, hc, heq⟩

theorem map_holds (h : s.Holds K E) {f : Capability → Capability}
    (hf : ∀ c, (f c).ptr = c.ptr ∧ (f c).name = c.name) {E' : Set CStr}
    (hon : ∀ x, x ∈ E' ↔ ∃ c ∈ s.vec, (f c).enabled = true ∧ istrFold c.name = x) :
    { s with vec := s.vec.map f }.Holds K E' where
  same := by
    have hrecs : { s with vec := s.vec.map f }.recs = s.recs := by
      rw [recs, recs, map_map]
      exact map_congr_left fun c _ => Prod.ext (hf c).1 (hf c).2
    rw [hrecs]
    exact h.same
  once := by
    show ((s.vec.map f).map fun c => istrFold c.name).Nodup
    rw [map_map]
    have : ((fun c : Capability => istrFold c.name) ∘ f) = fun c => istrFold c.name :=
      funext fun c => congrArg istrFold (hf c).2
    rw [this]
    exact h.once
  ptrs := by
    show ((s.vec.map f).map (·.ptr)).Nodup
    rw [map_map]
    have : ((fun c : Capability => c.ptr) ∘ f) = fun c => c.ptr := funext fun c => (hf c).1
    rw [this]
    exact h.ptrs
  fresh := by
    refine forall_mem_map.2 fun c hc => ?_
    rw [(hf c).1]
    exact h.fresh c hc
  status := h.status
  names_eq := by
    rw [← h.names_eq]
    ext x
    show (∃ c ∈ s.vec.map f, istrFold c.name = x) ↔ ∃ c ∈ s.vec, istrFold c.name = x
    simp only [mem_map, exists_exists_and_eq_and, (hf _).2]
  on_eq := by
    ext x
    rw [hon x]
    show (∃ c ∈ s.vec.map f, c.enabled = true ∧ istrFold c.name = x) ↔ _
    simp only [mem_map, exists_exists_and_eq_and, (hf _).2]

theorem modify_enabled (h : s.Holds K E) {c : Capability} (hc : c ∈ s.vec) (b : Bool) :
    (s.modify c.ptr fun c => { c with enabled := b }).Holds K
      (if b then E ∪ {istrFold c.name} else E \ {istrFold c.name}) := by
  refine map_holds h (fun c' => ?_) fun x => ?_
  · split <;> exact ⟨rfl, rfl⟩
  · rw [← h.on_eq]
    -- the record with this address is the one with this name
    have hself {c' : Capability} (hc' : c' ∈ s.vec) (hne : ¬ c'.ptr = c.ptr) :
        istrFold c'.name ≠ istrFold c.name := by
      intro heq
      exact hne (congrArg Capability.ptr (h.eq_of_fold hc' hc heq))
    have hsame {c' : Capability} (hc' : c' ∈ s.vec) (hptr : c'.ptr = c.ptr) : c' = c :=
      inj_on_of_nodup_map h.ptrs hc' hc hptr
    cases b with
    | true =>
      rw [if_pos rfl]
      constructor
      · rintro (⟨c', hc', hon, hx⟩ | hx)
        · refine ⟨c', hc', ?_, hx⟩
          split
          · rfl
          · exact hon
        · exact ⟨c, hc, by rw [if_pos rfl], hx.symm⟩
      · rintro ⟨c', hc', hon, hx⟩
        by_cases hptr : c'.ptr = c.ptr
        · exact .inr (hx ▸ hsame hc' hptr ▸ rfl)
        · rw [if_neg hptr] at hon
          exact .inl ⟨c', hc', hon, hx⟩
    | false =>
      rw [if_neg Bool.false_ne_true]
      constructor
      · rintro ⟨⟨c', hc', hon, hx⟩, hne⟩
        have hptr : ¬ c'.ptr = c.ptr := by
          intro hptr
          rw [hsame hc' hptr] at hx
          exact hne hx.symm
        exact ⟨c', hc', by rw [if_neg hptr]; exact hon, hx⟩
      · rintro ⟨c', hc', hon, hx⟩
        by_cases hptr : c'.ptr = c.ptr
        · rw [if_pos hptr] at hon
          cases hon
        · rw [if_neg hptr] at hon
          exact ⟨⟨c', hc', hon, hx⟩, fun hxc => hself hc' hptr (hx.trans hxc)⟩

theorem modify_requested (h : s.Holds K E) (p : ℕ) :
    (s.modify p fun c => { c with requested := true }).Holds K E := by
  refine map_holds h (fun c => ?_) fun x => ?_
  · split <;> exact ⟨rfl, rfl⟩
  · rw [← h.on_eq]
    refine exists_congr fun c => and_congr_right fun _ => and_congr_left' ?_
    split <;> rfl

theorem State.Holds.send (h : s.Holds K E) (line : CStr) : (s.send line).Holds K E :=
  ⟨h.same, h.once, h.ptrs, h.fresh, h.status, h.names_eq, h.on_eq⟩

/-! ### Adding and deleting -/

theorem addCapability_holds (h : s.Holds K E) {tok : CStr} (hfits : (capName tok).length ≤ capmax) :
    Gives (addCapability tok s) (·.Holds (K ∪ {istrFold (capName tok)}) E) := by
  rcases findCapability_spec h (capName tok) with ⟨hfind, hnew⟩ | ⟨c, -, hfind, -, hK⟩
  · refine Gives.bind ⟨none, hfind, rfl⟩ ?_
    rintro _ rfl
    dsimp only
    rw [take_of_length_le hfits]
    let newcap : Capability := ⟨s.next, capName tok, capValues tok, false, false⟩
    let s₁ : State := { s with vec := s.vec ++ [newcap], next := s.next + 1 }
    have hptrs : (s₁.vec.map (·.ptr)).Nodup := by
      show ((s.vec ++ [newcap]).map (·.ptr)).Nodup
      rw [map_append, map_singleton, nodup_append]
      refine ⟨h.ptrs, nodup_singleton _, fun p hp p' hp' => ?_⟩
      obtain ⟨c, hc, rfl⟩ := mem_map.1 hp
      rw [mem_singleton.1 hp']
      exact Nat.ne_of_lt (h.fresh c hc)
    have hother : ∀ c ∈ s.vec, istrFold c.name ≠ istrFold (capName tok) := by
      intro c hc heq
      exact hnew (h.names_eq ▸ ⟨c, hc, heq⟩)
    have hrecs : s₁.recs = s.recs ++ [(s.next, capName tok)] := by
      show (s.vec ++ [newcap]).map _ = _
      rw [map_append, map_singleton]
      rfl
    have hread : Reads s₁.nameAt s.recs :=
      fun r hr => reads hptrs r (hrecs ▸ mem_append_left _ hr)
    obtain ⟨dict, hset, hfiled⟩ := h.same.set (r := (s.next, capName tok)) hread
      fun q hq => by
        obtain ⟨c, hc, rfl⟩ := mem_map.1 hq
        exact hother c hc
    refine Gives.bind (P := (· = dict)) ⟨dict, ?_, rfl⟩ ?_
    · show orFreed (Htab.set istrHash istrFold s₁.nameAt s.dict s.next (capName tok) s.next) = _
      rw [hset]
      rfl
    rintro _ rfl
    refine .ok ⟨?_, ?_, hptrs, ?_, h.status, ?_, ?_⟩
    · show Filed istrHash istrFold s₁.recs _
      rw [hrecs]
      exact hfiled.perm (perm_append_singleton _ _).symm
    · show ((s.vec ++ [newcap]).map fun c => istrFold c.name).Nodup
      rw [map_append, map_singleton, nodup_append]
      refine ⟨h.once, nodup_singleton _, fun x hx x' hx' => ?_⟩
      obtain ⟨c, hc, rfl⟩ := mem_map.1 hx
      rw [mem_singleton.1 hx']
      exact hother c hc
    · refine forall_mem_append.2 ⟨fun c hc => Nat.lt_succ_of_lt (h.fresh c hc), fun c hc => ?_⟩
      rw [mem_singleton.1 hc]
      exact Nat.lt_succ_self _
    · rw [← h.names_eq]
      ext x
      show (∃ c ∈ s.vec ++ [newcap], istrFold c.name = x) ↔ _
      simp only [mem_append, mem_singleton, or_and_right, exists_or, exists_eq_left]
      exact or_congr_right eq_comm
    · rw [← h.on_eq]
      ext x
      show (∃ c ∈ s.vec ++ [newcap], c.enabled = true ∧ istrFold c.name = x) ↔ _
      simp only [mem_append, mem_singleton, or_and_right, exists_or, exists_eq_left]
      exact or_iff_left fun hoff => Bool.false_ne_true hoff.1
  · refine Gives.bind ⟨some c, hfind, rfl⟩ ?_
    rintro _ rfl
    rw [Set.union_eq_self_of_subset_right (Set.singleton_subset_iff.2 hK)]
    exact .ok h

theorem named_cons (tok : CStr) (toks : List CStr) :
    named (tok :: toks) = {istrFold tok} ∪ named toks := by
  ext x
  constructor
  · rintro ⟨t, ht, rfl⟩
    rcases mem_cons.1 ht with rfl | ht
    · exact .inl rfl
    · exact .inr ⟨t, ht, rfl⟩
  · rintro (rfl | ⟨t, ht, rfl⟩)
    · exact ⟨tok, mem_cons_self, rfl⟩
    · exact ⟨t, mem_cons_of_mem _ ht, rfl⟩

theorem named_nil : named [] = ∅ := by
  ext x
  simp [named]

theorem addLoop_holds (toks : List CStr) (h : s.Holds K E) (hfits : Fits toks) :
    Gives (toks.foldlM (fun s capptr => addCapability capptr s) s)
      (·.Holds (K ∪ namedCaps toks) E) := by
  induction toks generalizing s K with
  | nil =>
    rw [namedCaps, map_nil, named_nil, Set.union_empty]
    exact .ok h
  | cons tok toks ih =>
    obtain ⟨htok, htoks⟩ := forall_mem_cons.1 hfits
    rw [foldlM_cons, namedCaps, map_cons, named_cons, ← Set.union_assoc]
    exact Gives.bind (addCapability_holds h htok) fun s₁ h₁ => ih h₁ htoks

theorem addCapabilities_holds (h : s.Holds K E) {msg : CStr} (hfits : Fits (strtok ' ' msg)) :
    Gives (addCapabilities msg s) (·.Holds (K ∪ namedCaps (strtok ' ' msg)) E) :=
  addLoop_holds _ h hfits

theorem delCapability_holds (h : s.Holds K E) {name : CStr}
    (hcase : ∀ c ∈ s.vec, istrFold c.name = istrFold name → strcaseEq name c.name = true) :
    Gives (delCapability name s) fun s' =>
      s'.Holds (K \ {istrFold name}) (E \ {istrFold name}) ∧ s'.vec ⊆ s.vec := by
  rw [delCapability]
  rcases hi : s.vec.findIdx? fun curr => strcaseEq name curr.name with _ | i
  · have hnone : istrFold name ∉ K := by
      rw [← h.names_eq]
      rintro ⟨c, hc, heq⟩
      have hcase' := hcase c hc heq
      rw [findIdx?_eq_none_iff.1 hi c hc] at hcase'
      cases hcase'
    rw [hi, Set.sdiff_singleton_eq_self hnone,
      Set.sdiff_singleton_eq_self fun hE => hnone (h.subset hE)]
    exact .ok ⟨h, Subset.refl _⟩
  · obtain ⟨hlt, hstr, -⟩ := findIdx?_eq_some_iff_getElem.1 hi
    have hget : s.vec[i]? = some s.vec[i] := getElem?_eq_getElem hlt
    generalize hc : s.vec[i] = c at hget hstr
    have hperm := SwapRemove.removeFast_perm hget
    generalize hrest : SwapRemove.removeFast s.vec i = rest at hperm
    have hfold : istrFold name = istrFold c.name := istrFold_of_strcaseEq hstr
    have hrecs : ((c.ptr, c.name) :: rest.map fun c => (c.ptr, c.name)).Perm s.recs :=
      hperm.map fun c : Capability => (c.ptr, c.name)
    have hread : Reads s.nameAt ((c.ptr, c.name) :: rest.map fun c => (c.ptr, c.name)) :=
      fun r hr => reads h.ptrs r (hrecs.subset hr)
    obtain ⟨dict, hdel, hfiled⟩ := (h.same.perm hrecs.symm).del hread
      ((hrecs.map fun r => istrFold r.2).nodup_iff.2 (recs_once h.once)) hfold
    rw [hi]
    have hdict : orFreed (Htab.del istrHash istrFold s.nameAt s.dict name) = .ok dict := by
      rw [hdel]
      rfl
    refine Gives.bind ⟨dict, hdict, rfl⟩ ?_
    rintro _ rfl
    rw [hrest]
    have honce := (hperm.map fun c => istrFold c.name).nodup_iff.2 h.once
    rw [map_cons, nodup_cons] at honce
    have hsub : rest ⊆ s.vec := fun r hr => hperm.subset (mem_cons_of_mem _ hr)
    have hother : ∀ r ∈ rest, istrFold r.name ≠ istrFold name := by
      intro r hr heq
      exact honce.1 (mem_map.2 ⟨r, hr, heq.trans hfold⟩)
    refine .ok ⟨⟨hfiled, honce.2, ?_, fun r hr => h.fresh r (hsub hr), h.status, ?_, ?_⟩, hsub⟩
    · exact (nodup_cons.1 ((hperm.map (·.ptr)).nodup_iff.2 h.ptrs)).2
    · rw [← h.names_eq]
      ext x
      constructor
      · rintro ⟨r, hr, rfl⟩
        exact ⟨⟨r, hsub hr, rfl⟩, hother r hr⟩
      · rintro ⟨⟨r, hr, rfl⟩, hne⟩
        rcases mem_cons.1 (hperm.mem_iff.2 hr) with rfl | hr
        · exact absurd hfold.symm hne
        · exact ⟨r, hr, rfl⟩
    · rw [← h.on_eq]
      ext x
      constructor
      · rintro ⟨r, hr, hon, rfl⟩
        exact ⟨⟨r, hsub hr, hon, rfl⟩, hother r hr⟩
      · rintro ⟨⟨r, hr, hon, rfl⟩, hne⟩
        rcases mem_cons.1 (hperm.mem_iff.2 hr) with rfl | hr
        · exact absurd hfold.symm hne
        · exact ⟨r, hr, hon, rfl⟩

theorem delLoop_holds (toks : List CStr) (h : s.Holds K E)
    (hcase : ∀ tok ∈ toks, ∀ c ∈ s.vec, istrFold c.name = istrFold tok →
      strcaseEq tok c.name = true) :
    Gives (toks.foldlM (fun s capptr => delCapability capptr s) s)
      (·.Holds (K \ named toks) (E \ named toks)) := by
  induction toks generalizing s K E with
  | nil =>
    rw [named_nil, Set.sdiff_empty, Set.sdiff_empty]
    exact .ok h
  | cons tok toks ih =>
    obtain ⟨htok, htoks⟩ := forall_mem_cons.1 hcase
    rw [foldlM_cons, named_cons, ← Set.sdiff_sdiff, ← Set.sdiff_sdiff]
    refine Gives.bind (delCapability_holds h htok) fun s₁ ⟨h₁, hsub⟩ => ih h₁ ?_
    exact fun t ht c hc => htoks t ht c (hsub hc)

theorem delCapabilities_holds (h : s.Holds K E) {msg : CStr}
    (hcase : ∀ tok ∈ strtok ' ' msg, ∀ c ∈ s.vec, istrFold c.name = istrFold tok →
      strcaseEq tok c.name = true) :
    Gives (delCapabilities msg s)
      (·.Holds (K \ named (strtok ' ' msg)) (E \ named (strtok ' ' msg))) :=
  delLoop_holds _ h hcase

/-! ### Requests -/

theorem addReq_holds (h : s.Holds K E) (cape : CStr) : Gives (addReq cape s) (·.Holds K E) := by
  rcases findCapability_spec h cape with ⟨hfind, -⟩ | ⟨c, -, hfind, -⟩
  · refine Gives.bind ⟨none, hfind, rfl⟩ ?_
    rintro _ rfl
    exact .ok h
  · refine Gives.bind ⟨some c, hfind, rfl⟩ ?_
    rintro _ rfl
    exact .ok (modify_requested h c.ptr)

theorem requestLoop_holds (cfg : Settings) (caps : List Capability) (h : s.Holds K E) :
    Gives (caps.foldlM
      (fun s current => if cfg.wants current.name && !current.enabled then addReq current.name s
        else .ok s) s) (·.Holds K E) := by
  induction caps generalizing s with
  | nil => exact .ok h
  | cons current caps ih =>
    rw [foldlM_cons]
    refine Gives.bind (P := (·.Holds K E)) ?_ fun s₁ h₁ => ih h₁
    split
    · exact addReq_holds h _
    · exact .ok h

theorem requestWanted_holds (cfg : Settings) (h : s.Holds K E) :
    Gives (requestWanted cfg s) (·.Holds K E) :=
  Gives.bind (requestLoop_holds cfg s.vec h) fun _ h₁ => .ok (h₁.send _)

theorem newLoop_holds (toks : List CStr) (newreq : CStr) (h : s.Holds K E) :
    Gives (newLoop toks newreq s) (·.2.Holds K E) := by
  induction toks generalizing s newreq with
  | nil => exact .ok h
  | cons tok toks ih =>
    rcases findCapability_spec h (capName tok) with ⟨hfind, -⟩ | ⟨c, -, hfind, -⟩
    · refine Gives.bind ⟨none, hfind, rfl⟩ ?_
      rintro _ rfl
      exact ih newreq h
    · refine Gives.bind ⟨some c, hfind, rfl⟩ ?_
      rintro _ rfl
      dsimp only
      split
      · exact ih newreq h
      · exact ih _ (modify_requested h c.ptr)

theorem gotNew_holds (h : s.Holds K E) {msg : CStr} (hfits : Fits (strtok ' ' msg)) :
    Gives (gotNew msg s) (·.Holds (K ∪ namedCaps (strtok ' ' msg)) E) := by
  refine Gives.bind (addCapabilities_holds h hfits) fun s₁ h₁ => ?_
  refine Gives.bind (newLoop_holds _ [] h₁) fun r hr => ?_
  dsimp only
  split
  · exact .ok (hr.send _)
  · exact .ok hr

/-! ### Lists and acknowledgements -/

theorem enable_holds (h : s.Holds K E) (name : CStr) :
    Gives (do
      match ← findCapability name s with
      | some current => .ok (s.modify current.ptr fun c => { c with enabled := true })
      | none => .ok s) (·.Holds K (E ∪ ({istrFold name} ∩ K))) := by
  rcases findCapability_spec h name with ⟨hfind, hnone⟩ | ⟨c, hc, hfind, hname, hK⟩
  · refine Gives.bind ⟨none, hfind, rfl⟩ ?_
    rintro _ rfl
    rw [Set.singleton_inter_eq_empty.2 hnone, Set.union_empty]
    exact .ok h
  · refine Gives.bind ⟨some c, hfind, rfl⟩ ?_
    rintro _ rfl
    rw [Set.inter_eq_left.2 (Set.singleton_subset_iff.2 hK), ← hname]
    exact .ok (modify_enabled h hc true)

theorem listLoop_holds (toks : List CStr) (h : s.Holds K E) :
    Gives (listLoop toks s) (·.Holds K (E ∪ (named toks ∩ K))) := by
  rw [listLoop]
  induction toks generalizing s E with
  | nil =>
    rw [named_nil, Set.empty_inter, Set.union_empty]
    exact .ok h
  | cons tok toks ih =>
    rw [foldlM_cons, named_cons, Set.union_inter_distrib_right, ← Set.union_assoc]
    exact Gives.bind (enable_holds h tok) fun s₁ h₁ => ih h₁

theorem gotList_holds (h : s.Holds K E) {msg : CStr} (hstar : msg.head? ≠ some '*') :
    Gives (gotList msg s) (·.Holds K (named (strtok ' ' msg) ∩ K)) := by
  have hclear : { s with vec := s.vec.map fun c : Capability => { c with enabled := false } }.Holds K ∅ :=
    map_holds (f := fun c => { c with enabled := false }) h (fun c => ⟨rfl, rfl⟩) fun x => by simp
  have hloop := listLoop_holds (strtok ' ' msg) hclear
  rw [Set.empty_union] at hloop
  unfold gotList
  simp only [h.status, Bool.false_eq_true, if_false]
  split
  · exact absurd rfl hstar
  · exact absurd rfl hstar
  · rw [h.status] at hloop
    exact hloop

theorem ackName_subset {A : Set CStr} (h : A ⊆ K) (tok : CStr) : ackName K A tok ⊆ K := by
  rw [ackName]
  split
  · exact Set.sdiff_subset.trans h
  · exact Set.union_subset h Set.inter_subset_right

theorem ackNames_subset {A : Set CStr} (h : A ⊆ K) (toks : List CStr) :
    toks.foldl (ackName K) A ⊆ K := by
  induction toks generalizing A with
  | nil => exact h
  | cons tok toks ih => exact ih (ackName_subset h tok)

theorem ackNames_of_unknown {A : Set CStr} (hA : A ⊆ K) {toks : List CStr}
    (h : ∀ t ∈ toks, istrFold (ackToken t).2 ∉ K) : toks.foldl (ackName K) A = A := by
  induction toks with
  | nil => rfl
  | cons tok toks ih =>
    obtain ⟨htok, htoks⟩ := forall_mem_cons.1 h
    have hsame : ackName K A tok = A := by
      rw [ackName]
      rcases htk : ackToken tok with ⟨remove, name⟩
      rw [htk] at htok
      cases remove with
      | true => exact Set.sdiff_singleton_eq_self fun hmem => htok (hA hmem)
      | false =>
        show A ∪ ({istrFold name} ∩ K) = A
        rw [Set.singleton_inter_eq_empty.2 htok, Set.union_empty]
    rw [foldl_cons, hsame]
    exact ih htoks

theorem givesUp_modify {cfg : Settings} {p : ℕ} {b : Bool} {t : CStr}
    (h : GivesUp cfg (s.modify p fun c => { c with enabled := b }) t) : GivesUp cfg s t := by
  obtain ⟨hremove, hsasl, c, hc, hname, hcase, hrefused⟩ := h
  obtain ⟨c', hc', rfl⟩ := mem_map.1 hc
  refine ⟨hremove, hsasl, c', hc', ?_⟩
  split at hname
  · next hp =>
    rw [if_pos hp] at hcase hrefused
    exact ⟨hname, hcase, hrefused⟩
  · next hp =>
    rw [if_neg hp] at hcase hrefused
    exact ⟨hname, hcase, hrefused⟩

theorem ackLoop_holds {cfg : Settings} (toks : List CStr) (h : s.Holds K E)
    (hrest : ∀ pre tok post, toks = pre ++ tok :: post → GivesUp cfg s tok →
      ∀ t ∈ post, istrFold (ackToken t).2 ∉ K) :
    Gives (ackLoop cfg toks s) (·.2.Holds K (toks.foldl (ackName K) E)) := by
  induction toks generalizing s E with
  | nil => exact .ok h
  | cons tok toks ih =>
    have htail {s₁ : State} (hs₁ : ∀ t, GivesUp cfg s₁ t → GivesUp cfg s t) :
        ∀ pre t post, toks = pre ++ t :: post → GivesUp cfg s₁ t →
          ∀ u ∈ post, istrFold (ackToken u).2 ∉ K := by
      intro pre t post htoks hgive
      exact hrest (tok :: pre) t post (by rw [htoks]; rfl) (hs₁ t hgive)
    rw [ackLoop, foldl_cons]
    rcases htk : ackToken tok with ⟨remove, name⟩
    have hack : ackName K E tok =
        if remove then E \ {istrFold name} else E ∪ ({istrFold name} ∩ K) := by
      rw [ackName, htk]
      cases remove <;> rfl
    rw [hack]
    dsimp only
    rcases findCapability_spec h name with ⟨hfind, hnone⟩ | ⟨c, hc, hfind, hname, hK⟩
    · refine Gives.bind ⟨none, hfind, rfl⟩ ?_
      rintro _ rfl
      have hsame : (if remove then E \ {istrFold name} else E ∪ ({istrFold name} ∩ K)) = E := by
        split
        · exact Set.sdiff_singleton_eq_self fun hmem => hnone (h.subset hmem)
        · rw [Set.singleton_inter_eq_empty.2 hnone, Set.union_empty]
      rw [hsame]
      exact ih h (htail fun t ht => ht)
    · refine Gives.bind ⟨some c, hfind, rfl⟩ ?_
      rintro _ rfl
      cases remove with
      | true =>
        have h₁ := modify_enabled h hc false
        rw [if_neg Bool.false_ne_true, hname] at h₁
        exact ih h₁ (htail fun t => givesUp_modify)
      | false =>
        have h₁ := modify_enabled h hc true
        have hsingle : ({istrFold name} : Set CStr) ∩ K = {istrFold name} :=
          Set.inter_eq_left.2 (Set.singleton_subset_iff.2 hK)
        rw [if_pos rfl, hname, ← hsingle] at h₁
        rw [if_neg Bool.false_ne_true]
        dsimp only
        rw [if_neg Bool.false_ne_true]
        split
        · next hsasl =>
          rw [Bool.and_eq_true] at hsasl
          split
          · next hrefused =>
            have hgive : GivesUp cfg s tok :=
              ⟨by rw [htk], hsasl.1, c, hc, by rw [htk]; exact hname, hsasl.2, hrefused⟩
            rw [ackNames_of_unknown h₁.subset (hrest [] tok toks rfl hgive)]
            exact .ok ⟨h₁.same, h₁.once, h₁.ptrs, h₁.fresh, h₁.status, h₁.names_eq, h₁.on_eq⟩
          · refine ih ⟨h₁.same, h₁.once, h₁.ptrs, h₁.fresh, h₁.status, h₁.names_eq, h₁.on_eq⟩ ?_
            exact htail fun t ht => givesUp_modify ht
        · exact ih h₁ (htail fun t => givesUp_modify)

theorem gotAck_holds {cfg : Settings} {msg : CStr} (h : s.Holds K E)
    (hrest : ∀ pre tok post, strtok ' ' msg = pre ++ tok :: post → GivesUp cfg s tok →
      ∀ t ∈ post, istrFold (ackToken t).2 ∉ K) :
    Gives (gotAck cfg msg s) (·.Holds K ((strtok ' ' msg).foldl (ackName K) E)) := by
  refine Gives.bind (ackLoop_holds _ h hrest) ?_
  rintro ⟨refused, s₁⟩ h₁
  dsimp only
  split
  · exact .ok h₁
  · rcases findCapability_spec h₁ "sasl".toList with ⟨hfind, -⟩ | ⟨c, -, hfind, -⟩
    · refine Gives.bind ⟨none, hfind, rfl⟩ ?_
      rintro _ rfl
      exact .ok (h₁.send _)
    · refine Gives.bind ⟨some c, hfind, rfl⟩ ?_
      rintro _ rfl
      dsimp only
      split
      · exact .ok h₁
      · exact .ok (h₁.send _)

/-! ### Runs -/

namespace Both

/-- The invariant: the names are those of the server, and outside a list so are the enabled ones. -/
structure Inv (s : Both) : Prop where
  holds : s.1.Holds s.2.known s.1.on
  acked : s.2.acked ⊆ s.2.known
  enabled : s.2.listing = none → s.1.on = s.2.acked

theorem inv_init : Both.init.Inv where
  holds := ⟨.nil, nodup_nil, nodup_nil, fun c hc => absurd hc not_mem_nil, rfl, by
    ext x
    exact iff_of_false (fun ⟨c, hc, _⟩ => absurd hc not_mem_nil) id, rfl⟩
  acked := Set.Subset.refl _
  enabled _ := by
    ext x
    exact iff_of_false (fun ⟨c, hc, _⟩ => absurd hc not_mem_nil) id

variable {s : Both}

theorem Inv.agrees (h : s.Inv) : Agrees s where
  same := h.holds.same
  once := h.holds.once
  known x := by
    rw [← h.holds.names_eq]
    rfl
  enabled hlisting c hc := by
    rw [← h.enabled hlisting]
    refine ⟨fun hon => ⟨c, hc, hon, rfl⟩, ?_⟩
    rintro ⟨c', hc', hon, heq⟩
    rw [← h.holds.eq_of_fold hc' hc heq]
    exact hon

theorem inv_of_holds {n : Negotiation} {s' : State} {E : Set CStr} (h : s'.Holds n.known E)
    (hacked : n.acked ⊆ n.known) (hon : n.listing = none → E = n.acked) : Inv (s', n) :=
  ⟨⟨h.same, h.once, h.ptrs, h.fresh, h.status, h.names_eq, rfl⟩, hacked, fun hl =>
    h.on_eq.trans (hon hl)⟩

theorem Inv.line (h : s.Inv) (cfg : Settings) (msg : CStr) (hfine : FineLine cfg s (capLine msg)) :
    Gives (gotcap cfg msg s.1) fun s' => Inv (s', s.2.line (capLine msg)) := by
  rw [gotcap, Negotiation.line]
  rw [FineLine] at hfine
  generalize capLine msg = l at hfine ⊢
  dsimp only at hfine ⊢
  have hadd := h.acked.trans (Set.subset_union_left (t := namedCaps (strtok ' ' l.text)))
  by_cases hls : l.cmd = "LS".toList
  · rw [if_pos (.inl hls)] at hfine
    rw [if_pos hls, if_pos (.inl hls)]
    refine Gives.bind (addCapabilities_holds h.holds hfine) fun s₁ h₁ => ?_
    split
    · exact .ok (inv_of_holds h₁ hadd h.enabled)
    · exact (requestWanted_holds cfg h₁).mono fun s₂ h₂ => inv_of_holds h₂ hadd h.enabled
  rw [if_neg hls]
  by_cases hnew : l.cmd = "NEW".toList
  · rw [if_pos (.inr hnew)] at hfine
    have hlist : l.cmd ≠ "LIST".toList := by rw [hnew]; decide
    have hack : l.cmd ≠ "ACK".toList := by rw [hnew]; decide
    have hnak : l.cmd ≠ "NAK".toList := by rw [hnew]; decide
    rw [if_neg hlist, if_neg hack, if_neg hnak, if_pos hnew, if_pos (.inr hnew)]
    exact (gotNew_holds h.holds hfine).mono fun s₁ h₁ => inv_of_holds h₁ hadd h.enabled
  rw [if_neg (not_or.2 ⟨hls, hnew⟩)] at hfine ⊢
  by_cases hlist : l.cmd = "LIST".toList
  · rw [if_pos hlist] at hfine ⊢
    rw [if_pos hlist]
    obtain ⟨hstar, hlast⟩ := hfine
    refine (gotList_holds h.holds hstar).mono fun s₁ h₁ => ?_
    split
    · exact inv_of_holds h₁ h.acked fun hl => nomatch hl
    · next hmore =>
      refine inv_of_holds h₁ Set.inter_subset_right fun _ => ?_
      -- what the other lines name is in this one
      have hothers := hlast (eq_false_of_ne_true hmore)
      show named _ ∩ s.2.known = (_ ∪ _) ∩ s.2.known
      rw [Set.union_inter_distrib_right]
      exact (Set.union_eq_self_of_subset_left
        (Set.subset_inter hothers Set.inter_subset_right)).symm
  rw [if_neg hlist] at hfine ⊢
  rw [if_neg hlist]
  by_cases hack : l.cmd = "ACK".toList
  · rw [if_pos hack] at hfine ⊢
    rw [if_pos hack]
    refine (gotAck_holds h.holds hfine).mono fun s₁ h₁ => inv_of_holds h₁ ?_ fun hl => ?_
    · exact ackNames_subset h.acked _
    · rw [h.enabled hl]
  rw [if_neg hack] at hfine ⊢
  rw [if_neg hack, if_neg hnew]
  by_cases hdel : l.cmd = "DEL".toList
  · rw [if_pos hdel] at hfine ⊢
    rw [if_pos hdel, if_neg (by rw [hdel]; decide)]
    refine (delCapabilities_holds h.holds hfine).mono fun s₁ h₁ => ?_
    refine inv_of_holds h₁ (Set.sdiff_subset_sdiff_left h.acked) fun hl => ?_
    rw [h.enabled hl]
  rw [if_neg hdel, if_neg hdel]
  split
  · exact .ok (inv_of_holds (h.holds.send _) h.acked h.enabled)
  · exact .ok h

theorem exists_strtok_cons {sep : Char} {pre : CStr} (hne : pre ≠ []) (h : sep ∉ pre) (s : CStr) :
    ∃ t toks, strtok sep (pre ++ s) = (pre ++ t) :: toks := by
  have hsplit : ∃ t toks, (pre ++ s).splitOn sep = (pre ++ t) :: toks := by
    clear hne
    induction pre with
    | nil =>
      rcases hs : s.splitOn sep with _ | ⟨t, toks⟩
      · exact absurd hs (splitOnP_ne_nil _ _)
      · exact ⟨t, toks, hs⟩
    | cons c pre ih =>
      obtain ⟨hc, hpre⟩ := not_or.1 (mt mem_cons.2 h)
      obtain ⟨t, toks, ht⟩ := ih hpre
      refine ⟨t, toks, ?_⟩
      have hc' : ¬ (c == sep) = true := fun heq => hc (beq_iff_eq.1 heq).symm
      rw [splitOn] at ht
      rw [cons_append, splitOn, splitOnP_cons_eq_if_modifyHead, if_neg hc', ht]
      rfl
  obtain ⟨t, toks, ht⟩ := hsplit
  refine ⟨t, toks.filter fun tok => tok ≠ [], ?_⟩
  rw [strtok, ht, filter_cons_of_pos]
  simp [hne]

theorem Inv.mechs (h : s.Inv) (msg : CStr) (hfine : Fine s (.mechs msg)) :
    Gives (got908 msg s.1) fun s' => Inv (s', s.2.step (.mechs msg)) := by
  obtain ⟨hfits, hoff⟩ := hfine
  have hplain : isPlain "sasl".toList = true := by decide
  have hsasl : istrFold "sasl".toList = "sasl".toList := by decide
  have hname : istrFold "sasl".toList ∈ namedCaps (strtok ' ' (mechanisms msg)) := by
    obtain ⟨t, toks, ht⟩ := @exists_strtok_cons ' ' "sasl=".toList (by decide) (by decide)
      (Batch.fixcolon (newsplit msg).2)
    show _ ∈ namedCaps (strtok ' ' ("sasl=".toList ++ Batch.fixcolon (newsplit msg).2))
    rw [ht]
    exact ⟨capName ("sasl=".toList ++ t), mem_cons_self, rfl⟩
  refine Gives.bind (delCapability_holds h.holds fun c _ heq => ?_) fun s₁ ⟨h₁, _⟩ => ?_
  · exact strcaseEq_of_istrFold hplain heq.symm
  · refine (addCapabilities_holds h₁ hfits).mono fun s₂ h₂ => ?_
    have hback : s.2.known \ {istrFold "sasl".toList} ∪ namedCaps (strtok ' ' (mechanisms msg)) =
        s.2.known ∪ namedCaps (strtok ' ' (mechanisms msg)) := by
      rw [← Set.union_eq_self_of_subset_left (Set.singleton_subset_iff.2 hname), ← Set.union_assoc,
        Set.sdiff_union_self, Set.union_assoc]
    rw [hback] at h₂
    refine inv_of_holds h₂ (h.acked.trans Set.subset_union_left) fun hl => ?_
    have hon := h.enabled hl
    rw [hon]
    exact Set.sdiff_singleton_eq_self (hsasl.symm ▸ hoff hl)

theorem Inv.step (h : s.Inv) (e : Event) (hfine : Fine s e) : Gives (s.step e) Inv := by
  have hmap {x : Except Fault State} {n : Negotiation} (hx : Gives x fun s' => Inv (s', n)) :
      Gives (x.map fun s' => (s', n)) Inv := by
    obtain ⟨s', rfl, hs'⟩ := hx
    exact .ok hs'
  cases e with
  | cap cfg msg => exact hmap (h.line cfg msg hfine)
  | mechs msg => exact hmap (h.mechs msg hfine)
  | disconnect =>
    refine hmap (.ok (inv_of_holds (E := ∅) ⟨.nil, nodup_nil, nodup_nil, ?_, h.holds.status, ?_, ?_⟩
      (Set.Subset.refl _) fun _ => rfl))
    · exact fun c hc => absurd hc not_mem_nil
    · exact inv_init.holds.names_eq
    · exact inv_init.enabled rfl

end Both

/-- In every run whose lines are as they must be, nothing that is gone is read, and in every state the
bot and the server agree. -/
theorem negotiated_throughout (events : List Event) (h : Machine.Along Both.step Fine Both.init events) :
    (∃ s, Machine.run Both.step Both.init events = .ok s) ∧
      Machine.Throughout Both.step Agrees Both.init events := by
  constructor
  · obtain ⟨s, hs, -⟩ := Gives.run_along (fun s e hs hfine => hs.step e hfine) Both.inv_init h
    exact ⟨s, hs⟩
  · refine (Machine.throughout_of_along (fun s e s' hs hfine hs' => ?_) Both.inv_init h).imp
      fun s hs => hs.agrees
    obtain ⟨t, ht, hinv⟩ := Both.Inv.step hs e hfine
    obtain rfl : t = s' := Except.ok.inj (ht.symm.trans hs')
    exact hinv

/-- The settings of the runs below. -/
def plainSettings : Settings :=
  ⟨false, false, false, false, false, false, false, false, [], fun _ => ⟨[], false⟩⟩

theorem Both.step_snd {s s' : Both} {e : Event} (h : s.step e = .ok s') : s'.2 = s.2.step e := by
  rw [Both.step] at h
  rcases hs : s.1.step e with f | t
  · rw [hs] at h
    cases h
  · rw [hs] at h
    exact congrArg Prod.snd (Except.ok.inj h).symm

/-- The server has two capabilities and acknowledges one; its list names that one. -/
theorem negotiated_batch :
    Machine.Throughout Both.step Agrees Both.init
      [.cap plainSettings "* LS :batch bot".toList, .cap plainSettings "n ACK :batch".toList,
        .cap plainSettings "n LIST :batch".toList] := by
  have hls : capLine "* LS :batch bot".toList = ⟨"LS".toList, false, "batch bot".toList⟩ := by decide
  have hack : capLine "n ACK :batch".toList = ⟨"ACK".toList, false, "batch".toList⟩ := by decide
  have hlist : capLine "n LIST :batch".toList = ⟨"LIST".toList, false, "batch".toList⟩ := by decide
  have hfirst : Fine Both.init (.cap plainSettings "* LS :batch bot".toList) := by
    rw [Fine, hls]
    have hfits : ∀ tok ∈ strtok ' ' "batch bot".toList, (capName tok).length ≤ capmax := by decide
    exact hfits
  have hsecond (s : Both) : Fine s (.cap plainSettings "n ACK :batch".toList) := by
    rw [Fine, hack]
    rintro pre tok post - ⟨-, hsasl, -⟩
    cases hsasl
  have hthird {s : Both} (hs : s.2.listing = none) :
      Fine s (.cap plainSettings "n LIST :batch".toList) := by
    rw [Fine, hlist]
    refine ⟨by decide, fun _ => ?_⟩
    rw [hs]
    exact fun x hx => hx.1.elim
  refine (negotiated_throughout [_, _, _] (And.intro hfirst fun s₁ hs₁ => And.intro (hsecond s₁)
    fun s₂ hs₂ => And.intro (hthird ?_) fun _ _ => trivial)).2
  rw [Both.step_snd hs₂, Both.step_snd hs₁, Negotiation.step, Negotiation.step, hls, hack]
  rfl

theorem Both.run_eq (events : List Event) (s : Both) :
    Machine.run Both.step s events = (Machine.run State.step s.1 events).map fun s' =>
      (s', events.foldl Negotiation.step s.2) := by
  induction events generalizing s with
  | nil => rfl
  | cons e events ih =>
    rw [Machine.run, Machine.run, Both.step]
    rcases s.1.step e with f | t
    · rfl
    · exact ih (t, s.2.step e)

/-- A list in two lines. -/
theorem not_negotiated :
    ¬ ∀ events, Machine.Throughout Both.step Agrees Both.init events := by
  intro h
  let events : List Event :=
    [.cap plainSettings "* LS :batch bot".toList, .cap plainSettings "n LIST * :batch".toList,
      .cap plainSettings "n LIST :bot".toList]
  have hcode : (Machine.run State.step State.init events).toOption.any (fun s => s.vec.any fun c =>
      c.name = "batch".toList ∧ c.enabled = false) = true := by
    decide +kernel
  have hls : capLine "* LS :batch bot".toList = ⟨"LS".toList, false, "batch bot".toList⟩ := by decide
  have hone : capLine "n LIST * :batch".toList = ⟨"LIST".toList, true, "batch".toList⟩ := by decide
  have htwo : capLine "n LIST :bot".toList = ⟨"LIST".toList, false, "bot".toList⟩ := by decide
  obtain ⟨s, hs, hoff⟩ := Gives.of_any hcode
  obtain ⟨c, hc, hfacts⟩ := any_eq_true.1 hoff
  obtain ⟨hname, hdisabled⟩ := of_decide_eq_true hfacts
  have hrun := Both.run_eq events Both.init
  rw [show Machine.run State.step Both.init.1 events = .ok s from hs] at hrun
  have hagrees := (h events).last hrun
  have hacked : istrFold c.name ∈ (events.foldl Negotiation.step Negotiation.init).acked := by
    rw [hname]
    simp only [events, foldl_cons, foldl_nil, Negotiation.step, hls, hone, htwo]
    refine ⟨.inl (.inr ⟨"batch".toList, by decide, rfl⟩), .inr ⟨"batch".toList, by decide, rfl⟩⟩
  have hnone : (events.foldl Negotiation.step Negotiation.init).listing = none := by
    simp only [events, foldl_cons, foldl_nil, Negotiation.step, hls, hone, htwo]
    rfl
  have hon := (hagrees.enabled hnone c hc).2 hacked
  rw [hdisabled] at hon
  cases hon

end Eggdrop.Server.Caps
