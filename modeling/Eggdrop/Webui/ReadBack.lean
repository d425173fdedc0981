import Eggdrop.Webui.Http
import Eggdrop.Webui.Json

/-!
# ReadBack — strings that come back from the web interface (webui.c)

A string that `json_escape` wrote may be sent back to the bot, where `json_get_str` reads it, or
`api_config_post` if it is the configuration.  The first drops the backslash before a letter, the
second knows what some of the letters mean.

* `jsonStr_escape_iff`, `contentStr_escape_iff`: which strings the two read as they were.
* `readBack_iff`: the same for a field of a request, and for the configuration file.
-/

open List

namespace Eggdrop.Webui

/-- What `api_config_post` makes of a character behind a backslash. -/
def contentChar (c : Char) : Char :=
  if c = 'n' then '\n' else if c = 'r' then '\r' else if c = 't' then '\t' else c

/-- The loop of `api_config_post`. -/
def contentStr : CStr → CStr
  | [] => []
  | '"' :: _ => []
  | '\\' :: c :: p => contentChar c :: contentStr p
  | c :: p => c :: contentStr p

def contentKey : CStr := "\"content\":".toList

/-- The content that `api_config_post` finds in a request. -/
def postedContent (body : CStr) : Option CStr :=
  match (behind body contentKey).map (·.dropWhile (· == ' ')) with
  | some ('"' :: p) => some (contentStr p)
  | _ => none

/-- `api_config_post`: the configuration file behind it, where it can be written. -/
def apiConfigPost (file body : CStr) : CStr := (postedContent body).getD file

/-- The content that `api_config` answers with: the file is a C string once it was read. -/
def apiConfigContent (file : CStr) : CStr := jsonEscape (cstr file)

/-- A request with one field. -/
def request (key value : CStr) : CStr := '\x7b' :: '"' :: (key ++ '"' :: ':' :: (value ++ ['\x7d']))

/-- The request that writes the configuration. -/
def configRequest (value : CStr) : CStr := '\x7b' :: (contentKey ++ (value ++ ['\x7d']))

/-- `json_get_str` reads what was written for a string, where there is room for it and for the key. -/
def ReadsBack (s : CStr) : Prop :=
  ∀ (key : CStr) (outsz : ℕ), key.length ≤ 63 → s.length < outsz →
    jsonGetStr (request key (jsonEscape s)) key outsz = some s

/-- A character that is no control character. -/
def Printed (c : Char) : Prop := 0x20 ≤ c.toNat

/-- A character that is none but for the ends of lines and tabs. -/
def Texted (c : Char) : Prop := 0x20 ≤ c.toNat ∨ c = '\n' ∨ c = '\r' ∨ c = '\t'

variable {s t : CStr} {n : ℕ} {c : Char}

/-! ### One character -/

/-- What `json_escape` makes of a character. -/
theorem jsonChar_cases (c : Char) :
    (jsonChar c = ['\\', c] ∧ (c = '"' ∨ c = '\\') ∧ Printed c) ∨
      (∃ d, jsonChar c = ['\\', d] ∧ contentChar d = c ∧ ¬ Printed c ∧ Texted c ∧ d ≠ c) ∨
      (∃ u, jsonChar c = '\\' :: 'u' :: u ∧ ¬ Texted c) ∨
      (jsonChar c = [c] ∧ c ≠ '"' ∧ c ≠ '\\' ∧ Printed c) := by
  unfold jsonChar Printed Texted
  by_cases hquote : c = '"'
  · exact .inl ⟨by rw [if_pos hquote, hquote], .inl hquote, by rw [hquote]; decide⟩
  by_cases hback : c = '\\'
  · exact .inl ⟨by rw [if_neg hquote, if_pos hback, hback], .inr hback, by rw [hback]; decide⟩
  rw [if_neg hquote, if_neg hback]
  by_cases hn : c = '\n'
  · refine .inr (.inl ⟨'n', by rw [if_pos hn], ?_⟩)
    rw [hn]
    decide
  by_cases hr : c = '\r'
  · refine .inr (.inl ⟨'r', by rw [if_neg hn, if_pos hr], ?_⟩)
    rw [hr]
    decide
  by_cases ht : c = '\t'
  · refine .inr (.inl ⟨'t', by rw [if_neg hn, if_neg hr, if_pos ht], ?_⟩)
    rw [ht]
    decide
  rw [if_neg hn, if_neg hr, if_neg ht]
  by_cases hctrl : c.toNat < 0x20
  · refine .inr (.inr (.inl ⟨_, if_pos hctrl, ?_⟩))
    rintro (h | h | h | h)
    · omega
    · exact hn h
    · exact hr h
    · exact ht h
  · exact .inr (.inr (.inr ⟨if_neg hctrl, hquote, hback, Nat.not_lt.1 hctrl⟩))

theorem Printed.texted (h : Printed c) : Texted c := .inl h

theorem ne_of_not_texted (h : ¬ Texted c) : 'u' ≠ c := by
  rintro rfl
  exact h (by unfold Texted; decide)

/-! ### The two readers -/

theorem jsonStr_back (n : ℕ) (c : Char) (p : CStr) : jsonStr (n + 1) ('\\' :: c :: p) = c :: jsonStr n p := by
  rw [jsonStr]

theorem jsonStr_cons {c : Char} (hquote : c ≠ '"') (hback : c ≠ '\\') (n : ℕ) (p : CStr) :
    jsonStr (n + 1) (c :: p) = c :: jsonStr n p := by
  rw [jsonStr]
  · intro h
    exact absurd h hquote
  · intro d q h
    exact absurd h hback

theorem contentStr_back (c : Char) (p : CStr) :
    contentStr ('\\' :: c :: p) = contentChar c :: contentStr p := by
  rw [contentStr]

theorem contentStr_cons {c : Char} (hquote : c ≠ '"') (hback : c ≠ '\\') (p : CStr) :
    contentStr (c :: p) = c :: contentStr p := by
  rw [contentStr]
  · intro h
    exact absurd h hquote
  · intro d q h
    exact absurd h hback

/-- A string comes back through `json_get_str` if it has no control characters. -/
theorem jsonStr_escape_iff (hroom : s.length ≤ n) (t : CStr) :
    jsonStr n (s.flatMap jsonChar ++ '"' :: t) = s ↔ ∀ c ∈ s, Printed c := by
  induction s generalizing n with
  | nil =>
    refine iff_of_true ?_ fun _ h => absurd h not_mem_nil
    cases n with
    | zero => rfl
    | succ n => rfl
  | cons c s ih =>
    rw [length_cons] at hroom
    obtain ⟨n, rfl⟩ : ∃ k, n = k + 1 := ⟨n - 1, by omega⟩
    have ih := ih (Nat.le_of_succ_le_succ hroom)
    rw [flatMap_cons, append_assoc, forall_mem_cons]
    rcases jsonChar_cases c with ⟨hc, -, hprint⟩ | ⟨d, hc, -, hprint, -, hne⟩ | ⟨u, hc, htext⟩ |
      ⟨hc, hquote, hback, hprint⟩
    · rw [hc, cons_append, singleton_append, jsonStr_back, cons.injEq, ih]
      exact ⟨fun h => ⟨hprint, h.2⟩, fun h => ⟨rfl, h.2⟩⟩
    · rw [hc, cons_append, singleton_append, jsonStr_back, cons.injEq]
      exact iff_of_false (fun h => hne h.1) fun h => hprint h.1
    · rw [hc, cons_append, cons_append, jsonStr_back, cons.injEq]
      exact iff_of_false (fun h => ne_of_not_texted htext h.1) fun h => htext h.1.texted
    · rw [hc, singleton_append, jsonStr_cons hquote hback, cons.injEq, ih]
      exact ⟨fun h => ⟨hprint, h.2⟩, fun h => ⟨rfl, h.2⟩⟩

/-- A string comes back through `api_config_post` if its control characters are ends of lines and
tabs. -/
theorem contentStr_escape_iff (s t : CStr) :
    contentStr (s.flatMap jsonChar ++ '"' :: t) = s ↔ ∀ c ∈ s, Texted c := by
  induction s with
  | nil => exact iff_of_true rfl fun _ h => absurd h not_mem_nil
  | cons c s ih =>
    rw [flatMap_cons, append_assoc, forall_mem_cons]
    rcases jsonChar_cases c with ⟨hc, hsame, hprint⟩ | ⟨d, hc, hd, -, htext, -⟩ | ⟨u, hc, htext⟩ |
      ⟨hc, hquote, hback, hprint⟩
    · have hself : contentChar c = c := by
        rcases hsame with rfl | rfl <;> rfl
      rw [hc, cons_append, singleton_append, contentStr_back, cons.injEq, ih, hself]
      exact ⟨fun h => ⟨hprint.texted, h.2⟩, fun h => ⟨rfl, h.2⟩⟩
    · rw [hc, cons_append, singleton_append, contentStr_back, cons.injEq, ih, hd]
      exact ⟨fun h => ⟨htext, h.2⟩, fun h => ⟨rfl, h.2⟩⟩
    · rw [hc, cons_append, cons_append, contentStr_back, cons.injEq]
      exact iff_of_false (fun h => ne_of_not_texted htext h.1) fun h => htext h.1
    · rw [hc, singleton_append, contentStr_cons hquote hback, cons.injEq, ih]
      exact ⟨fun h => ⟨hprint.texted, h.2⟩, fun h => ⟨rfl, h.2⟩⟩

/-! ### Requests -/

theorem behind_cons {c d : Char} {pat : CStr} (hne : d ≠ c) (t : CStr) :
    behind (c :: (d :: pat ++ t)) (d :: pat) = some t := by
  have hhead : ¬ (d :: pat).isPrefixOf (c :: (d :: pat ++ t)) := by
    rw [ isPrefixOf_iff_prefix, cons_prefix_cons]
    exact fun h => hne h.1
  have hfound : strstr (d :: pat ++ t) (d :: pat) = some (d :: pat ++ t) :=
    strstr_of_prefix (cons_ne_nil _ _) (prefix_append _ _)
  rw [behind, strstr, if_neg hhead, hfound, Option.map_some, drop_left]

theorem jsonGetStr_request (key s : CStr) (outsz : ℕ) :
    jsonGetStr (request key (jsonEscape s)) key outsz =
      some (jsonStr (outsz - 1) (s.flatMap jsonChar ++ '"' :: ['\x7d'])) := by
  have hbehind := @behind_cons '\x7b' '"' (key ++ ['"']) (by decide) (':' :: (jsonEscape s ++ ['\x7d']))
  have hbody : '\x7b' :: ('"' :: (key ++ ['"']) ++ ':' :: (jsonEscape s ++ ['\x7d'])) =
      request key (jsonEscape s) := by
    simp [request]
  rw [hbody] at hbehind
  rw [jsonGetStr, hbehind]
  simp [jsonEscape]

theorem postedContent_request (s : CStr) :
    postedContent (configRequest (jsonEscape s)) =
      some (contentStr (s.flatMap jsonChar ++ '"' :: ['\x7d'])) := by
  have hbehind := @behind_cons '\x7b' '"' "content\":".toList (by decide) (jsonEscape s ++ ['\x7d'])
  rw [postedContent, configRequest, show behind ('\x7b' :: (contentKey ++ (jsonEscape s ++ ['\x7d'])))
    contentKey = _ from hbehind]
  simp [jsonEscape]

theorem readsBack_iff (s : CStr) : ReadsBack s ↔ ∀ c ∈ s, Printed c := by
  unfold ReadsBack
  constructor
  · intro h
    have hback := h [] (s.length + 1) (by decide) (Nat.lt_succ_self _)
    rw [jsonGetStr_request] at hback
    exact (jsonStr_escape_iff (Nat.le_refl _) _).1 (Option.some.inj hback)
  · intro h key outsz _ hroom
    rw [jsonGetStr_request]
    exact congrArg some ((jsonStr_escape_iff (by omega) _).2 h)

/-! ### The configuration file -/

theorem mem_contentStr {p : CStr} (h : c ∈ contentStr p) : c ∈ p ∨ c = '\n' ∨ c = '\r' ∨ c = '\t' := by
  induction p using contentStr.induct with
  | case1 => exact absurd h not_mem_nil
  | case2 p => exact absurd h (by rw [contentStr]; exact not_mem_nil)
  | case3 d p ih =>
    rw [contentStr_back, mem_cons] at h
    rcases h with rfl | h
    · unfold contentChar
      split_ifs
      · exact .inr (.inl rfl)
      · exact .inr (.inr (.inl rfl))
      · exact .inr (.inr (.inr rfl))
      · exact .inl (mem_cons_of_mem _ mem_cons_self)
    · exact (ih h).imp_left fun h => mem_cons_of_mem _ (mem_cons_of_mem _ h)
  | case4 d p hquote hback ih =>
    rw [contentStr, mem_cons] at h
    · rcases h with rfl | h
      · exact .inl mem_cons_self
      · exact (ih h).imp_left (mem_cons_of_mem d)
    · exact hquote
    · exact hback

theorem hexLower_ne_nul (n : ℕ) : hexLower n ≠ '\x00' := by
  have hall : ∀ d ∈ "0123456789abcdef".toList, d ≠ '\x00' := by decide
  unfold hexLower
  rw [getD_eq_getElem?_getD]
  cases hd : "0123456789abcdef".toList[n]? with
  | none => decide
  | some d => exact hall d (mem_of_getElem? hd)

theorem nul_notMem_jsonChar (hc : c ≠ '\x00') : '\x00' ∉ jsonChar c := by
  unfold jsonChar
  split_ifs
  · decide
  · decide
  · decide
  · decide
  · decide
  · have hhigh := hexLower_ne_nul (c.toNat / 16)
    have hlow := hexLower_ne_nul (c.toNat % 16)
    simp [hhigh.symm, hlow.symm]
  · rw [mem_singleton]
    exact hc.symm

/-- Which configuration files are the same when what was read is written back. -/
theorem apiConfigPost_iff (file : CStr) :
    apiConfigPost file (configRequest (apiConfigContent file)) = file ↔ ∀ c ∈ file, Texted c := by
  have hnul : ¬ Texted '\x00' := by unfold Texted; decide
  have hcstr : '\x00' ∉ file → cstr file = file := by
    intro h
    have hall : ∀ c ∈ file, (c != '\x00') = true := by
      intro c hc
      rw [bne_iff_ne]
      rintro rfl
      exact h hc
    have htake := @takeWhile_append_of_pos _ (· != '\x00') file [] hall
    rwa [append_nil, takeWhile_nil, append_nil] at htake
  rw [apiConfigPost, apiConfigContent, postedContent_request, Option.getD_some]
  constructor
  · intro hsame
    have hfile : '\x00' ∉ file := by
      intro hmem
      rw [← hsame] at hmem
      rcases mem_contentStr hmem with h | h | h | h
      · rcases mem_append.1 h with h | h
        · obtain ⟨d, hd, hmem⟩ := mem_flatMap.1 h
          refine nul_notMem_jsonChar (c := d) ?_ hmem
          rintro rfl
          exact absurd (mem_takeWhile_imp hd) (by decide)
        · revert h
          decide
      · revert h
        decide
      · revert h
        decide
      · revert h
        decide
    rw [hcstr hfile] at hsame
    exact (contentStr_escape_iff file _).1 hsame
  · intro hall
    have hfile : '\x00' ∉ file := fun h => hnul (hall _ h)
    rw [hcstr hfile]
    exact (contentStr_escape_iff file _).2 hall

/-- Which strings come back. -/
theorem readBack_iff (s file : CStr) :
    (ReadsBack s ↔ ∀ c ∈ s, Printed c) ∧
      (postedContent (configRequest (jsonEscape s)) = some s ↔ ∀ c ∈ s, Texted c) ∧
      (apiConfigPost file (configRequest (apiConfigContent file)) = file ↔ ∀ c ∈ file, Texted c) := by
  refine ⟨readsBack_iff s, ?_, apiConfigPost_iff file⟩
  rw [postedContent_request, Option.some.injEq]
  exact contentStr_escape_iff s _

/-- Ends of lines become letters, and so do other control characters. -/
theorem not_readBack : ¬ (∀ s, ReadsBack s) ∧
    ¬ (∀ s, postedContent (configRequest (jsonEscape s)) = some s) ∧
    ¬ ∀ file, apiConfigPost file (configRequest (apiConfigContent file)) = file := by
  refine ⟨fun h => ?_, fun h => ?_, fun h => ?_⟩
  · have hback := h ['\n'] ['k'] 2 (by decide) (by decide)
    revert hback
    decide
  · have hback := h ['\x07']
    revert hback
    decide
  · have hback := h ['\x07']
    revert hback
    decide

end Eggdrop.Webui
