import Eggdrop.Webui.Auth
import Eggdrop.Webui.ReadBack

/-!
# ConfigPost — the configuration file behind `POST /api/config` (webui.c)

The handler decodes the string that stands for `content`, cuts the file to nothing as it opens it,
and writes what it has decoded.  It is given what one read handed in, and the decoder stops at the
end of that as it stops at a closing quote; and when the write goes wrong, the file has been cut
already.

* `settled_iff`: when the file is as it was, or what a whole string stands for, as the reply says.
* `configPost_iff`: the same for requests, of which the handler saw a part.
-/

open List

namespace Eggdrop.Webui

/-! ### The handler -/

/-- What becomes of `open` and `write`. -/
inductive FileOps
  /-- `open` fails, and the file is not touched -/
  | unopened
  /-- `write` fails -/
  | failed
  /-- there is room for so many characters -/
  | room (n : ℕ)

/-- `send_200_ok`, or `send_400` with its text. -/
inductive ConfigReply
  | ok
  | error (msg : CStr)
  deriving DecidableEq

/-- `open` with `O_TRUNC`, and `write`: the file behind them, and the reply. -/
@[grind =] def FileOps.write (o : FileOps) (file content : CStr) : CStr × ConfigReply :=
  match o with
  | unopened => (file, .error "cannot open config file for writing".toList)
  | failed => ([], .error "write failed".toList)
  | room n =>
    (content.take n, if content.length ≤ n then .ok else .error "write failed".toList)

/-- `api_config_post`, whatever becomes of the file: the file behind it, and the reply. -/
@[grind =] def apiConfigPostWith (o : FileOps) (file : CStr) (body : Option CStr) : CStr × ConfigReply :=
  match body with
  | none => (file, .error "missing body".toList)
  | some body =>
    match behind body contentKey with
    | none => (file, .error "content required".toList)
    | some p =>
      match p.dropWhile (· == ' ') with
      | '"' :: p => o.write file (contentStr p)
      | _ => (file, .error "content must be a string".toList)

/-! ### What it is for -/

/-- What a string stands for of which the opening quote is gone, if it has a closing one. -/
@[grind =] def closed : CStr → Option CStr
  | [] => none
  | '"' :: _ => some []
  | '\\' :: c :: p => (closed p).map (contentChar c :: ·)
  | c :: p => (closed p).map (c :: ·)

/-- What stands behind the opening quote of the string for `content`. -/
@[grind =] def contentOpen (body : CStr) : Option CStr :=
  match (behind body contentKey).map (·.dropWhile (· == ' ')) with
  | some ('"' :: p) => some p
  | _ => none

/-- With the whole body given: success means that the file is what a whole string in the body stands
for, and an error that it is as it was. -/
structure Settled (whole : Option CStr) (file : CStr) (result : CStr × ConfigReply) : Prop where
  ok : result.2 = .ok → ∃ p, whole.bind contentOpen = some p ∧ closed p = some result.1
  error : result.2 ≠ .ok → result.1 = file

/-! ### When it does it -/

/-- The string ends in a backslash that nothing stands behind and no backslash before. -/
@[grind =] def endsBack : CStr → Bool
  | [] => false
  | ['\\'] => true
  | '\\' :: _ :: p => endsBack p
  | _ :: p => endsBack p

/-- Of the string `q`, only the part `p` was read: and it is whole, or nothing but the closing quote
is missing.  Where it was cut behind a backslash, the other one of a pair may be missing too. -/
def Enough (p q : CStr) : Prop :=
  (closed p).isSome = true ∨
    if endsBack p = true then p ++ ['\\', '"'] <+: q else p ++ ['"'] <+: q

/-- The file is not touched, or a string that was read whole is written whole; a write that goes wrong
leaves what was in the file. -/
@[grind =] def FileOps.Clean (o : FileOps) (file p q : CStr) : Prop :=
  match o with
  | unopened => True
  | failed => file = []
  | room n => if (contentStr p).length ≤ n then Enough p q else file = (contentStr p).take n

/-! ### Strings that were read in part -/

section Strings

variable {p q t s : CStr} {c : Char}

theorem closed_back (c : Char) (p : CStr) :
    closed ('\\' :: c :: p) = (closed p).map (contentChar c :: ·) := by
  rw [closed]

theorem closed_cons (hquote : c ≠ '"') (hback : c ≠ '\\') (p : CStr) :
    closed (c :: p) = (closed p).map (c :: ·) := by
  rw [closed]
  · intro h
    exact absurd h hquote
  · intro d q h
    exact absurd h hback

theorem closed_append (h : closed p = some s) (t : CStr) :
    closed (p ++ t) = some s ∧ contentStr p = s := by
  induction p using contentStr.induct generalizing s with
  | case1 => simp [closed] at h
  | case2 p =>
    rw [closed] at h
    obtain rfl := Option.some.inj h
    exact ⟨rfl, rfl⟩
  | case3 c p ih =>
    rw [closed_back] at h
    obtain ⟨s, hs, rfl⟩ := Option.map_eq_some_iff.1 h
    obtain ⟨hclosed, hstr⟩ := ih hs
    rw [cons_append, cons_append, closed_back, hclosed, contentStr_back, hstr]
    exact ⟨rfl, rfl⟩
  | case4 c p hquote hback ih =>
    by_cases hc : c = '\\'
    · subst hc
      cases p with
      | nil => simp [closed] at h
      | cons d p => exact absurd rfl (hback d p rfl)
    · have hq : c ≠ '"' := fun h => hquote h
      rw [closed_cons hq hc] at h
      obtain ⟨s, hs, rfl⟩ := Option.map_eq_some_iff.1 h
      obtain ⟨hclosed, hstr⟩ := ih hs
      rw [cons_append, closed_cons hq hc, hclosed, contentStr_cons hq hc, hstr]
      exact ⟨rfl, rfl⟩

theorem endsBack_back (c : Char) (p : CStr) : endsBack ('\\' :: c :: p) = endsBack p := by
  rw [endsBack]

theorem endsBack_cons (hback : c ≠ '\\') (p : CStr) : endsBack (c :: p) = endsBack p := by
  rw [endsBack]
  · intro h
    exact absurd h hback
  · intro d q h
    exact absurd h hback

theorem closed_append_of_none (h : closed p = none) (hback : endsBack p = false) (t : CStr) :
    closed (p ++ t) = (closed t).map (contentStr p ++ ·) := by
  induction p using contentStr.induct with
  | case1 =>
    rw [nil_append, contentStr]
    simp
  | case2 p => simp [closed] at h
  | case3 c p ih =>
    rw [closed_back, Option.map_eq_none_iff] at h
    rw [endsBack_back] at hback
    rw [cons_append, cons_append, closed_back, ih h hback, contentStr_back, Option.map_map]
    rfl
  | case4 c p hquote hpair ih =>
    have hq : c ≠ '"' := fun h => hquote h
    by_cases hc : c = '\\'
    · subst hc
      cases p with
      | nil => simp [endsBack] at hback
      | cons d p => exact absurd rfl (hpair d p rfl)
    · rw [closed_cons hq hc, Option.map_eq_none_iff] at h
      rw [endsBack_cons hc] at hback
      rw [cons_append, closed_cons hq hc, ih h hback, contentStr_cons hq hc, Option.map_map]
      rfl

theorem endsBack_split (h : closed p = none) (hback : endsBack p = true) :
    ∃ u, p = u ++ ['\\'] ∧ closed u = none ∧ endsBack u = false ∧
      contentStr p = contentStr u ++ ['\\'] := by
  induction p using contentStr.induct with
  | case1 => simp [endsBack] at hback
  | case2 p => simp [closed] at h
  | case3 c p ih =>
    rw [closed_back, Option.map_eq_none_iff] at h
    rw [endsBack_back] at hback
    obtain ⟨u, rfl, hu, hub, hstr⟩ := ih h hback
    refine ⟨'\\' :: c :: u, rfl, ?_, ?_, ?_⟩
    · rw [closed_back, hu, Option.map_none]
    · rw [endsBack_back, hub]
    · rw [contentStr_back, contentStr_back, hstr, cons_append]
  | case4 c p hquote hpair ih =>
    have hq : c ≠ '"' := fun h => hquote h
    by_cases hc : c = '\\'
    · subst hc
      cases p with
      | nil => exact ⟨[], rfl, rfl, rfl, rfl⟩
      | cons d p => exact absurd rfl (hpair d p rfl)
    · rw [closed_cons hq hc, Option.map_eq_none_iff] at h
      rw [endsBack_cons hc] at hback
      obtain ⟨u, rfl, hu, hub, hstr⟩ := ih h hback
      refine ⟨c :: u, rfl, ?_, ?_, ?_⟩
      · rw [closed_cons hq hc, hu, Option.map_none]
      · rw [endsBack_cons hc, hub]
      · rw [contentStr_cons hq hc, contentStr_cons hq hc, hstr, cons_append]

theorem closed_eq_nil_iff : closed t = some [] ↔ ['"'] <+: t := by
  cases t with
  | nil => simp [closed]
  | cons c t =>
    rw [cons_prefix_cons]
    by_cases hq : c = '"'
    · subst hq
      exact iff_of_true rfl ⟨rfl, nil_prefix⟩
    apply iff_of_false _ fun h => hq h.1.symm
    intro h
    by_cases hc : c = '\\'
    · subst hc
      cases t with
      | nil => simp [closed] at h
      | cons d t => simp [closed_back] at h
    · simp [closed_cons hq hc] at h

theorem contentChar_eq_back_iff : contentChar c = '\\' ↔ c = '\\' := by
  rw [contentChar]
  constructor
  · intro h
    split_ifs at h
    · exact absurd h (by decide)
    · exact absurd h (by decide)
    · exact absurd h (by decide)
    · exact h
  · rintro rfl
    rfl

theorem closed_eq_back_iff : closed ('\\' :: t) = some ['\\'] ↔ ['\\', '"'] <+: t := by
  cases t with
  | nil => simp [closed]
  | cons c t =>
    rw [closed_back, cons_prefix_cons, ← closed_eq_nil_iff, Option.map_eq_some_iff, @eq_comm _ '\\',
      ← contentChar_eq_back_iff]
    constructor
    · rintro ⟨s, hs, heq⟩
      obtain ⟨hc, rfl⟩ := cons.inj heq
      exact ⟨hc, hs⟩
    · rintro ⟨hc, ht⟩
      exact ⟨[], ht, by rw [hc]⟩

/-- What was decoded of a part of the string is the whole of it exactly if enough was read. -/
theorem enough_iff (h : p <+: q) : closed q = some (contentStr p) ↔ Enough p q := by
  obtain ⟨t, rfl⟩ := h
  rw [Enough]
  cases hp : closed p with
  | some s =>
    obtain ⟨hclosed, hstr⟩ := closed_append hp t
    rw [hclosed, hstr]
    simp
  | none =>
    rw [Option.isSome_none, Bool.false_eq_true, false_or]
    by_cases hback : endsBack p = true
    · rw [if_pos hback, prefix_append_right_inj, ← closed_eq_back_iff]
      obtain ⟨u, rfl, hu, hub, hstr⟩ := endsBack_split hp hback
      rw [append_assoc, singleton_append, closed_append_of_none hu hub, hstr]
      constructor
      · intro h
        obtain ⟨s, hs, heq⟩ := Option.map_eq_some_iff.1 h
        rw [hs, append_cancel_left heq]
      · intro h
        rw [h, Option.map_some]
    · rw [if_neg hback, prefix_append_right_inj, ← closed_eq_nil_iff,
        closed_append_of_none hp (by simpa using hback)]
      constructor
      · intro h
        obtain ⟨s, hs, heq⟩ := Option.map_eq_some_iff.1 h
        rw [hs, append_right_eq_self.1 heq]
      · intro h
        rw [h, Option.map_some, append_nil]

end Strings

/-! ### The handler and the request -/

section Handler

variable {o : FileOps} {file : CStr} {body whole : Option CStr}

theorem apiConfigPostWith_open {p : CStr} (h : body.bind contentOpen = some p) :
    apiConfigPostWith o file body = o.write file (contentStr p) := by
  obtain ⟨b, rfl, hopen⟩ := Option.bind_eq_some_iff.1 h
  rw [contentOpen] at hopen
  rw [apiConfigPostWith]
  cases hkey : behind b contentKey with
  | none => simp [hkey] at hopen
  | some x =>
    rw [hkey, Option.map_some] at hopen
    dsimp only
    split at hopen
    · next heq =>
      obtain rfl := Option.some.inj hopen
      rw [Option.some.inj heq]
      rfl
    · simp at hopen

/-- Where there is no string for `content`, nothing is opened. -/
theorem apiConfigPostWith_none (o : FileOps) (file : CStr) (h : body.bind contentOpen = none) :
    ∃ msg, apiConfigPostWith o file body = (file, .error msg) := by
  unfold apiConfigPostWith
  split
  · exact ⟨_, rfl⟩
  next b =>
  rw [Option.bind_some, contentOpen] at h
  split
  · exact ⟨_, rfl⟩
  next x hkey =>
  rw [hkey, Option.map_some] at h
  split
  · next p heq =>
    rw [heq] at h
    simp at h
  · exact ⟨_, rfl⟩

theorem contentOpen_append {b p : CStr} (h : contentOpen b = some p) (t : CStr) :
    contentOpen (b ++ t) = some (p ++ t) := by
  rw [contentOpen] at h ⊢
  cases hkey : behind b contentKey with
  | none => simp [hkey] at h
  | some x =>
    rw [hkey, Option.map_some] at h
    rw [behind_append_right hkey, Option.map_some]
    split at h
    · next p' heq =>
      obtain rfl := Option.some.inj h
      have hx := Option.some.inj heq
      rw [dropWhile_append, hx]
      rfl
    · simp at h

/-- A write leaves what it should exactly if it is clean. -/
theorem write_settled_iff {p q : CStr} (hpre : p <+: q) (hwhole : whole.bind contentOpen = some q) :
    Settled whole file (o.write file (contentStr p)) ↔ o.Clean file p q := by
  cases o with
  | unopened =>
    apply iff_of_true _ trivial
    constructor
    · intro h
      cases h
    · exact fun _ => rfl
  | failed =>
    constructor
    · intro h
      have hfile : [] = file := h.error (by simp [FileOps.write])
      exact hfile.symm
    · intro h
      constructor
      · intro h
        cases h
      · exact fun _ => h.symm
  | room n =>
    rw [FileOps.Clean, FileOps.write]
    by_cases hroom : (contentStr p).length ≤ n
    · rw [if_pos hroom, if_pos hroom, take_of_length_le hroom, ← enough_iff hpre]
      constructor
      · intro h
        obtain ⟨q', hq', hclosed⟩ := h.ok rfl
        rw [hwhole] at hq'
        obtain rfl := Option.some.inj hq'
        exact hclosed
      · intro h
        exact ⟨fun _ => ⟨q, hwhole, h⟩, fun hne => absurd rfl hne⟩
    · rw [if_neg hroom, if_neg hroom]
      constructor
      · intro h
        have hfile : (contentStr p).take n = file := h.error (by simp)
        exact hfile.symm
      · intro h
        constructor
        · intro h
          cases h
        · exact fun _ => h.symm

/-- When the file is as it was, or what a whole string stands for, as the reply says. -/
theorem settled_iff (hpart : ∀ b, body = some b → ∃ t, whole = some (b ++ t)) :
    Settled whole file (apiConfigPostWith o file body) ↔
      ∀ p q, body.bind contentOpen = some p → whole.bind contentOpen = some q → o.Clean file p q := by
  cases hopen : body.bind contentOpen with
  | none =>
    obtain ⟨msg, hresult⟩ := apiConfigPostWith_none o file hopen
    rw [hresult]
    apply iff_of_true
    · constructor
      · intro h
        cases h
      · exact fun _ => rfl
    · intro p q hp
      cases hp
  | some p =>
    obtain ⟨b, rfl, hb⟩ := Option.bind_eq_some_iff.1 hopen
    obtain ⟨t, rfl⟩ := hpart b rfl
    have hwhole : (some (b ++ t)).bind contentOpen = some (p ++ t) := contentOpen_append hb t
    rw [apiConfigPostWith_open hopen, write_settled_iff (prefix_append p t) hwhole]
    constructor
    · intro h p' q hp' hq
      obtain rfl := Option.some.inj hp'
      rw [hwhole] at hq
      obtain rfl := Option.some.inj hq
      exact h
    · intro h
      exact h p (p ++ t) rfl hwhole

end Handler

section Requests

variable {sha1 : CStr → CStr} {s : State} {ip : CStr}

theorem routeChannelGet_ne_post (rest : CStr) (post : Post) (body : Option CStr) :
    routeChannelGet rest ≠ .api (.post post body) := by
  rw [routeChannelGet]
  repeat' split
  all_goals simp

theorem routeGet_ne_post (path mem : CStr) (post : Post) (body : Option CStr) :
    routeGet sha1 s path mem ≠ .api (.post post body) := by
  rw [routeGet]
  repeat' split
  all_goals first
    | exact routeChannelGet_ne_post _ post body
    | (cases upgrade sha1 mem <;> simp)

theorem route_post_body {method : Method} {path mem : CStr} {post : Post} {body : Option CStr}
    (h : (route sha1 s ip method path mem).2 = .api (.post post body)) : body = getBody (cstr mem) := by
  cases method with
  | get => exact absurd h (routeGet_ne_post path mem post body)
  | post =>
    rw [route] at h
    split at h
    · have hserved : (apiAuthPost s ip (getBody (cstr mem))).2.isServed = false :=
        apiAuthPost_isServed _
      rw [h] at hserved
      cases hserved
    · revert h
      rw [routePost]
      repeat' split
      all_goals simp
      exact fun _ h => h.symm
  | delete =>
    exfalso
    revert h
    rw [route, routeDelete]
    repeat' split
    all_goals simp
  | options =>
    simp [route] at h

/-- A handler for `POST` is given the body of what was read. -/
theorem activity_post_body {buf stale : CStr} {post : Post} {body : Option CStr}
    (h : (webuiHttpActivity sha1 s ip buf stale).2 = .api (.post post body)) :
    body = getBody (cstr buf) := by
  have hcstr := cstr_append_nul buf stale
  cases hasked : asked buf stale with
  | none =>
    exfalso
    revert h
    rw [activity_none sha1 s ip hasked]
    repeat' split
    all_goals simp
  | some mp =>
    obtain ⟨method, path⟩ := mp
    rw [activity_eq sha1 s ip hasked] at h
    rw [← hcstr]
    split at h
    · split at h
      · exact route_post_body h
      · cases h
    · exact route_post_body h

theorem getBody_part {req seen b : CStr} (hseen : seen <+: req) (h : getBody (cstr seen) = some b) :
    ∃ t, getBody req = some (b ++ t) := by
  have hpre : cstr seen <+: req := ( takeWhile_prefix _).trans hseen
  obtain ⟨t, rfl⟩ := hpre
  exact ⟨t, behind_append_right h t⟩

/-- Of any request to write the configuration, the file is left as it should be exactly if the string
was read as far as its closing quote, and written as a whole. -/
theorem configPost_iff (sha1 : CStr → CStr) (s : State) (ip req seen stale file : CStr) (o : FileOps)
    (body : Option CStr) (hseen : seen <+: req)
    (hreply : (webuiHttpActivity sha1 s ip seen stale).2 = .api (.post .config body)) :
    Settled (getBody req) file (apiConfigPostWith o file body) ↔
      ∀ p q, body.bind contentOpen = some p → (getBody req).bind contentOpen = some q →
        o.Clean file p q := by
  apply settled_iff
  rintro b rfl
  exact getBody_part hseen (activity_post_body hreply).symm

end Requests

/-- A server without a token, to which nothing has happened. -/
def openState : State := ⟨[], 0, fun _ => none, 0⟩

/-- A request that is to write `ab` into the configuration file. -/
def abRequest : CStr := "POST /api/config HTTP/1.1\r\n\r\n\"content\":\"ab\"".toList

theorem configPost_iff_ab :
    (webuiHttpActivity id openState [] abRequest []).2 =
      .api (.post .config (some "\"content\":\"ab\"".toList)) ∧
    (Settled (getBody abRequest) ['x']
        (apiConfigPostWith (.room 9) ['x'] (some "\"content\":\"ab\"".toList)) ↔
      ∀ p q, (some "\"content\":\"ab\"".toList).bind contentOpen = some p →
        (getBody abRequest).bind contentOpen = some q → (FileOps.room 9).Clean ['x'] p q) :=
  ⟨by decide, configPost_iff id openState [] abRequest abRequest [] ['x'] (.room 9) _ prefix_rfl
    (by decide)⟩

/-- Where the first read ends behind the `a`, the file is `a`, and the reply is that of success. -/
theorem not_configPost :
    ¬ ∀ (sha1 : CStr → CStr) (s : State) (ip req seen stale file : CStr) (o : FileOps)
      (body : Option CStr), seen <+: req →
      (webuiHttpActivity sha1 s ip seen stale).2 = .api (.post .config body) →
        Settled (getBody req) file (apiConfigPostWith o file body) := by
  intro h
  have hsettled := h id openState [] abRequest (abRequest.take 41) [] ['x'] (.room 9)
    (some "\"content\":\"a".toList) ( take_prefix _ _) (by decide)
  obtain ⟨p, hp, hclosed⟩ := hsettled.ok (by decide)
  obtain rfl : "ab\"".toList = p := Option.some.inj ((by decide : _ = _).trans hp)
  exact absurd hclosed (by decide)

end Eggdrop.Webui
