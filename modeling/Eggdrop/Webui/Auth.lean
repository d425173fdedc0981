import Eggdrop.Webui.Http

/-!
# Auth — who gets to the handlers of the web interface

What it is for a request to present the token is said here in the terms of HTTP: by an
`Authorization` header with the scheme `Bearer`, or by a parameter `token` in the query of the
request line.  `check_auth` looks for two texts instead, in all of what was read, and only where
they stand first.

* `right_iff`: for a single request, the checks do what they are for exactly if the token stands
  behind the first of one of the texts where it is presented, and behind neither where it is not;
  the upgrade of `/w` is not behind the checks and needs the token all the same.
* `WrongToken.reply_eq`: requests which differ in a wrong token only are answered alike if neither
  has the token behind one of the texts.
* `token_checked`: both, and what holds of the authentication endpoint.
-/

open List

namespace Eggdrop.Webui

/-! ### What it is to present the token -/

/-- The lines of a text whose lines end in CR LF. -/
def crlfLines : CStr → List CStr
  | [] => [[]]
  | '\r' :: '\n' :: s => [] :: crlfLines s
  | c :: s =>
    match crlfLines s with
    | [] => [[c]]
    | l :: ls => (c :: l) :: ls

/-- The lines of the header section. -/
def headerLines (req : CStr) : List CStr := ((crlfLines req).drop 1).takeWhile (· != [])

def isBlank (c : Char) : Bool := c == ' ' || c == '\t'

/-- The value of a header field, without the blanks around it. -/
def fieldValue (line : CStr) : CStr :=
  ((((line.dropWhile (· != ':')).drop 1).dropWhile isBlank).reverse.dropWhile isBlank).reverse

/-- The line is an `Authorization` field with the token for a bearer. -/
def isBearer (token line : CStr) : Bool :=
  strcaseEq (line.takeWhile (· != ':')) "authorization".toList &&
    strcaseEq ((fieldValue line).take 7) "bearer ".toList &&
    ((fieldValue line).drop 7).dropWhile (· == ' ') == token

/-- The parameters in the query of the request line. -/
def queryParams (req : CStr) : List CStr :=
  let target := ((((crlfLines req).headD []).dropWhile (· != ' ')).drop 1).takeWhile (· != ' ')
  ((target.dropWhile (· != '?')).drop 1).splitOn '&'

/-- The parameter gives the token, as it is or coded. -/
def isTokenParam (token param : CStr) : Bool :=
  "token=".toList.isPrefixOf param &&
    (param.drop 6 == token || urlDecode (param.drop 6) == token)

def presents (token req : CStr) : Bool :=
  (headerLines req).any (isBearer token) || (queryParams req).any (isTokenParam token)

/-- A handler of the API other than that of the authentication, or an upgrade, has run. -/
def Reply.isServed : Reply → Bool
  | .api _ | .partyline _ | .push _ | .pushFull _ => true
  | _ => false

/-! ### Requests that the server looks at -/

/-- The method and the path, where the request gets as far as the checks. -/
def asked (buf stale : CStr) : Option (Method × CStr) :=
  if buf.head? = some '\x16' ∨ buf.length < 16 then none
  else
    match parseMethod (cstr (buf ++ '\x00' :: stale)) with
    | none | some .options => none
    | some method => some (method, parsePath (cstr (buf ++ '\x00' :: stale)) method)

/-- The path is behind the checks. -/
def isGuarded (path : CStr) : Bool := isApi path || isWs path

/-- The request is a `POST` to the authentication endpoint. -/
def asksAuth (buf stale : CStr) : Prop := asked buf stale = some (.post, authPath)

instance (buf stale : CStr) : Decidable (asksAuth buf stale) := inferInstanceAs (Decidable (_ = _))

/-- The token stands behind the first of one of the two texts in what was read. -/
def tokenFirst (token buf stale : CStr) : Bool :=
  (behind (cstr (buf ++ '\x00' :: stale)) bearer).any (tokenAt endsBearer token) ||
    (behind (cstr (buf ++ '\x00' :: stale)) tokenQuery).any (tokenAt endsQuery token)

section Requests

variable (sha1 : CStr → CStr) (s : State) (ip : CStr)

/-- The request has a path of the API, or asks for an upgrade that the server can make: what the
routes would answer if the checks passed it. -/
def reaches (buf stale : CStr) : Bool :=
  (asked buf stale).any fun (method, path) =>
    (route sha1 s ip method path (buf ++ '\x00' :: stale)).2.isServed

/-- What the checks are for, about a request of which `seen` was read. -/
structure Right (req seen stale : CStr) : Prop where
  served : (webuiHttpActivity sha1 s ip seen stale).2.isServed = true → presents s.token req = true
  passes : presents s.token req = true → s.isBlocked ip = false → ¬ asksAuth seen stale →
    (webuiHttpActivity sha1 s ip seen stale).2 ≠ .unauthorized

/-- Where the checks find the token exactly if it is there. -/
structure Placed (req seen stale : CStr) : Prop where
  /-- a request without the token that has a handler is one that the checks see, and they do not
  take another text of it for the token -/
  absent : reaches sha1 s ip seen stale = true → presents s.token req = false →
    (asked seen stale).any (fun (_, path) => isGuarded path) = true ∧
      (s.isBlocked ip = true ∨ tokenFirst s.token seen stale = false)
  /-- they see the token that is there -/
  found : presents s.token req = true → s.isBlocked ip = false →
    (asked seen stale).any (fun (_, path) => isGuarded path) = true →
    tokenFirst s.token seen stale = true

end Requests

/-! ### The checks -/

section Checks

variable {sha1 : CStr → CStr} {s : State} {ip : CStr}

theorem authIpCheck_snd : (s.authIpCheck ip).2 = s.isBlocked ip := by
  rw [State.authIpCheck, State.isBlocked]
  cases s.authFail ip with
  | none => rfl
  | some af =>
    by_cases hblock : af.blockedUntil ≠ 0 ∧ s.now < af.blockedUntil
    · simp [hblock]
    · have : (af.blockedUntil != 0 && decide (s.now < af.blockedUntil)) = false := by simpa using hblock
      simp only [if_neg hblock, Option.any_some, this]
      split <;> rfl

theorem authIpCheck_token : (s.authIpCheck ip).1.token = s.token := by
  rw [State.authIpCheck]
  repeat' split
  all_goals rfl

theorem authIpCheck_wsPushCount : (s.authIpCheck ip).1.wsPushCount = s.wsPushCount := by
  rw [State.authIpCheck]
  repeat' split
  all_goals rfl

theorem authIpSucceed_wsPushCount : (s.authIpSucceed ip).wsPushCount = s.wsPushCount := by
  rw [State.authIpSucceed]
  split <;> rfl

theorem authGate_snd (s : State) (ip buf : CStr) :
    (s.authGate ip buf).2 = (!s.isBlocked ip && checkAuth s.token buf) := by
  have hblock : (s.authIpCheck ip).2 = s.isBlocked ip := authIpCheck_snd
  have htok : (s.authIpCheck ip).1.token = s.token := authIpCheck_token
  rw [State.authGate]
  simp only [hblock, htok]
  cases s.isBlocked ip
  · cases checkAuth s.token buf <;> rfl
  · rfl

theorem authGate_wsPushCount (s : State) (ip buf : CStr) : (s.authGate ip buf).1.wsPushCount = s.wsPushCount := by
  have hcount : (s.authIpCheck ip).1.wsPushCount = s.wsPushCount := authIpCheck_wsPushCount
  rw [State.authGate]
  dsimp only
  split
  · exact hcount
  · split
    · exact authIpSucceed_wsPushCount.trans hcount
    · exact hcount

theorem checkAuth_eq {buf stale : CStr} (htok : s.token ≠ []) :
    checkAuth s.token (cstr (buf ++ '\x00' :: stale)) = tokenFirst s.token buf stale := by
  rw [checkAuth, tokenFirst, List.isEmpty_eq_false_iff.2 htok, Bool.false_or]

theorem ne_authPath_of_guarded {path : CStr} (h : isGuarded path = true) : path ≠ authPath := by
  rintro rfl
  revert h
  decide

theorem route_congr (sha1 : CStr → CStr) {s s' : State} (ip : CStr)
    (hcount : s'.wsPushCount = s.wsPushCount) {path : CStr}
    (hpath : path ≠ authPath) (method : Method) (mem : CStr) :
    (route sha1 s' ip method path mem).2 = (route sha1 s ip method path mem).2 := by
  cases method with
  | get => simp only [route, routeGet, hcount]
  | post => simp only [route, if_neg hpath]
  | delete => rfl
  | options => rfl

theorem apiAuthPost_isServed (body : Option CStr) : (apiAuthPost s ip body).2.isServed = false := by
  rw [apiAuthPost]
  dsimp only
  repeat' split
  all_goals rfl

theorem routeChannelGet_ne (rest : CStr) : routeChannelGet rest ≠ .unauthorized := by
  rw [routeChannelGet]
  repeat' split
  all_goals simp

theorem route_ne_unauthorized {method : Method} {path : CStr}
    (h : ¬ (method = .post ∧ path = authPath)) (mem : CStr) :
    (route sha1 s ip method path mem).2 ≠ .unauthorized := by
  cases method with
  | get =>
    rw [route, routeGet]
    repeat' split
    all_goals first
      | exact routeChannelGet_ne _
      | (cases upgrade sha1 mem <;> simp)
  | post =>
    rw [route, if_neg fun hpath => h ⟨rfl, hpath⟩, routePost]
    repeat' split
    all_goals simp
  | delete =>
    rw [route, routeDelete]
    repeat' split
    all_goals simp
  | options => simp [route]

theorem activity_none (sha1 : CStr → CStr) (s : State) (ip : CStr) {buf stale : CStr}
    (h : asked buf stale = none) :
    (webuiHttpActivity sha1 s ip buf stale).2 =
      if buf.head? = some '\x16' then .alert
      else if parseMethod (cstr (buf ++ '\x00' :: stale)) = none ∨ buf.length < 16 then .closed
      else .preflight := by
  rw [asked] at h
  unfold webuiHttpActivity
  by_cases htls : buf.head? = some '\x16'
  · simp only [if_pos htls]
  simp only [if_neg htls]
  by_cases hlen : buf.length < 16
  · rw [if_pos (Or.inr hlen)]
    simp only [if_pos hlen]
    split <;> rfl
  rw [if_neg (by simp [htls, hlen])] at h
  split at h
  · next hm => simp only [hm, true_or, if_true]
  · next hm => simp [hm, hlen]
  · simp at h

theorem activity_eq (sha1 : CStr → CStr) (s : State) (ip : CStr) {buf stale path : CStr} {method : Method}
    (h : asked buf stale = some (method, path)) :
    webuiHttpActivity sha1 s ip buf stale =
      if isGuarded path = true then
        if (s.authGate ip (cstr (buf ++ '\x00' :: stale))).2 = true then
          route sha1 (s.authGate ip (cstr (buf ++ '\x00' :: stale))).1 ip method path
            (buf ++ '\x00' :: stale)
        else ((s.authGate ip (cstr (buf ++ '\x00' :: stale))).1, .unauthorized)
      else route sha1 s ip method path (buf ++ '\x00' :: stale) := by
  rw [asked] at h
  split at h
  · simp at h
  next hearly =>
  rw [not_or] at hearly
  split at h
  · simp at h
  · simp at h
  next m hmethod hm =>
  obtain ⟨rfl, rfl⟩ : m = method ∧ parsePath (cstr (buf ++ '\x00' :: stale)) m = path := by
    simpa using h
  set path := parsePath (cstr (buf ++ '\x00' :: stale)) m with hpath
  have hboth {α : Type} (x y : α) : (if isApi path = true then x else if isWs path = true then x else y) =
      if isGuarded path = true then x else y := by
    simp only [isGuarded, Bool.or_eq_true]
    by_cases hapi : isApi path = true
    · simp [hapi]
    · simp [hapi]
  unfold webuiHttpActivity
  simp only [if_neg hearly.1, hm, if_neg hearly.2, if_neg (fun hm' => hmethod hm'), ← hpath, hboth]

theorem activity_some (sha1 : CStr → CStr) (ip : CStr) {buf stale path : CStr} {method : Method}
    (h : asked buf stale = some (method, path)) (htok : s.token ≠ []) :
    (webuiHttpActivity sha1 s ip buf stale).2 =
      if isGuarded path = true ∧ (s.isBlocked ip = true ∨ tokenFirst s.token buf stale = false) then
        .unauthorized
      else (route sha1 s ip method path (buf ++ '\x00' :: stale)).2 := by
  have hgate := authGate_snd s ip (cstr (buf ++ '\x00' :: stale))
  have hcount := authGate_wsPushCount s ip (cstr (buf ++ '\x00' :: stale))
  rw [checkAuth_eq htok] at hgate
  rw [activity_eq sha1 s ip h]
  by_cases hguard : isGuarded path = true
  · have hroute := route_congr sha1 ip hcount (ne_authPath_of_guarded hguard) method
      (buf ++ '\x00' :: stale)
    rw [if_pos hguard, hgate]
    by_cases hpass : s.isBlocked ip = true ∨ tokenFirst s.token buf stale = false
    · have hshut : (!s.isBlocked ip && tokenFirst s.token buf stale) = false := by
        rcases hpass with hpass | hpass <;> simp [hpass]
      rw [if_neg (by simp [hshut]), if_pos ⟨hguard, hpass⟩]
    · have hopen : (!s.isBlocked ip && tokenFirst s.token buf stale) = true := by
        simpa [not_or] using hpass
      rw [if_pos hopen, if_neg fun h => hpass h.2]
      exact hroute
  · rw [if_neg hguard, if_neg fun h => hguard h.1]

end Checks

/-! ### Single requests -/

/-- The checks do what they are for exactly if they find the token where it is, and only there. -/
theorem right_iff (sha1 : CStr → CStr) (s : State) (ip req seen stale : CStr)
    (htok : s.token ≠ []) : Right sha1 s ip req seen stale ↔ Placed sha1 s ip req seen stale := by
  cases hasked : asked seen stale with
  | none =>
    have hreply := activity_none sha1 s ip hasked
    have hserved : (webuiHttpActivity sha1 s ip seen stale).2.isServed = false := by
      rw [hreply]
      repeat' split
      all_goals rfl
    have hne : (webuiHttpActivity sha1 s ip seen stale).2 ≠ .unauthorized := by
      rw [hreply]
      repeat' split
      all_goals simp
    constructor
    · intro _
      exact ⟨fun h => by simp [reaches, hasked] at h, fun _ _ h => by simp [hasked] at h⟩
    · intro _
      exact ⟨fun h => by simp [hserved] at h, fun _ _ _ => hne⟩
  | some mp =>
    obtain ⟨method, path⟩ := mp
    have hreply := activity_some sha1 ip hasked htok
    have hreach : reaches sha1 s ip seen stale =
        (route sha1 s ip method path (seen ++ '\x00' :: stale)).2.isServed := by
      simp [reaches, hasked]
    have hguard : (asked seen stale).any (fun (_, path) => isGuarded path) = isGuarded path := by
      simp [hasked]
    constructor
    · rintro ⟨hserved, hpasses⟩
      refine ⟨fun hr habsent => ?_, fun hp hblock hg => ?_⟩
      · -- were it not stopped, it would be served without the token
        rw [hguard]
        by_contra hstop
        rw [hreply, if_neg hstop, ← hreach, habsent] at hserved
        exact Bool.false_ne_true (hserved hr)
      · rw [hguard] at hg
        by_contra hfirst
        refine hpasses hp hblock ?_ ?_
        · rw [asksAuth, hasked]
          intro h
          exact ne_authPath_of_guarded hg (by simpa using congrArg (Option.map Prod.snd) h)
        · rw [hreply, if_pos ⟨hg, Or.inr (by simpa using hfirst)⟩]
    · rintro ⟨habsent, hfound⟩
      rw [hguard] at hfound
      refine ⟨fun hserved => ?_, fun hp hblock hauth => ?_⟩
      · by_contra hp
        rw [Bool.not_eq_true] at hp
        rw [hreply] at hserved
        split at hserved
        · simp [Reply.isServed] at hserved
        · next hstop =>
          have := habsent (hreach ▸ hserved) hp
          rw [hguard] at this
          exact hstop this
      · rw [hreply]
        split
        · next hstop =>
          rcases hstop.2 with h | h
          · simp [hblock] at h
          · simp [hfound hp hblock hstop.1] at h
        · refine route_ne_unauthorized (fun h => hauth ?_) _
          rw [asksAuth, hasked, h.1, h.2]

/-! ### Two requests with wrong tokens -/

/-- The token that a request to the authentication endpoint hands in, as the endpoint reads it. -/
def bodyToken (buf stale : CStr) : CStr :=
  ((getBody (cstr (buf ++ '\x00' :: stale))).bind fun body =>
    jsonGetStr body "token".toList 65).getD []

/-- The requests differ in a token that their header or their query presents. -/
inductive WrongToken : CStr → CStr → Prop
  | header (l field w w' post : CStr) (hl : '\x00' ∉ l)
      (hline : ¬ "\r\n\r\n".toList <:+: l ++ '\r' :: '\n' :: field)
      (hfield : strcaseEq field bearer = true)
      (hw : ∀ c ∈ w ++ w', c ≠ '\r' ∧ c ≠ '\n' ∧ c ≠ '\x00') :
      WrongToken (l ++ '\r' :: '\n' :: (field ++ (w ++ '\r' :: '\n' :: post)))
        (l ++ '\r' :: '\n' :: (field ++ (w' ++ '\r' :: '\n' :: post)))
  | param (l q w w' post : CStr) (hne : l ≠ []) (hpost : " HTTP/1.".toList <:+: post)
      (hl : ∀ c ∈ l ++ q, c ≠ '\r' ∧ c ≠ '\x00')
      (hw : ∀ c ∈ w ++ w', c ≠ ' ' ∧ c ≠ '&' ∧ c ≠ '\r' ∧ c ≠ '\n' ∧ c ≠ '\x00') :
      WrongToken (l ++ '?' :: (q ++ ("token=".toList ++ (w ++ post))))
        (l ++ '?' :: (q ++ ("token=".toList ++ (w' ++ post))))

section Pairs

variable {sha1 : CStr → CStr} {s : State} {ip : CStr}

theorem isPrefixOf_append_cons {p l x : CStr} {c : Char} (hc : c ∉ p) :
    p.isPrefixOf (l ++ c :: x) = p.isPrefixOf l := by
  rw [Bool.eq_iff_iff, isPrefixOf_iff_prefix, isPrefixOf_iff_prefix]
  refine ⟨fun h => ?_, fun h => h.trans (prefix_append _ _)⟩
  refine prefix_of_prefix_length_le h (prefix_append _ _) ?_
  by_contra hlen
  have hin : l ++ [c] <+: p := by
    have hwhole : l ++ [c] <+: l ++ c :: x := ⟨x, by simp⟩
    exact prefix_of_prefix_length_le hwhole h (by simp; omega)
  exact hc (hin.subset (by simp))

theorem takeWhile_append_cons {p : Char → Bool} {c : Char} (hc : p c = false) (l x : CStr) :
    (l ++ c :: x).takeWhile p = l.takeWhile p := by
  induction l with
  | nil => simp [hc]
  | cons d l ih =>
    rw [cons_append, takeWhile_cons, takeWhile_cons, ih]

theorem cstr_append {l : CStr} (hl : '\x00' ∉ l) (x : CStr) : cstr (l ++ x) = l ++ cstr x := by
  refine takeWhile_append_of_pos fun d hd => bne_iff_ne.2 ?_
  rintro rfl
  exact hl hd

theorem cstr_append_cons {l x : CStr} {c : Char} (hl : '\x00' ∉ l) (hc : c ≠ '\x00') :
    cstr (l ++ c :: x) = l ++ c :: cstr x := by
  rw [cstr_append hl]
  simp [cstr, hc]

theorem parseMethod_append_cons {l x : CStr} {c : Char} (hc : c = '\r' ∨ c = '?') :
    parseMethod (l ++ c :: x) = parseMethod l := by
  have hmem (p : CStr) (hp : '\r' ∉ p ∧ '?' ∉ p) : p.isPrefixOf (l ++ c :: x) = p.isPrefixOf l := by
    refine isPrefixOf_append_cons ?_
    rcases hc with rfl | rfl
    exacts [hp.1, hp.2]
  simp only [parseMethod, hmem "GET ".toList (by decide), hmem "POST ".toList (by decide),
    hmem "DELETE ".toList (by decide), hmem "OPTIONS ".toList (by decide)]

theorem skip_le_of_parseMethod {l : CStr} {m : Method} (h : parseMethod l = some m) :
    m.skip ≤ l.length := by
  have hlen {p : CStr} (hp : p.isPrefixOf l = true) : p.length ≤ l.length :=
    ( isPrefixOf_iff_prefix.1 hp).length_le
  unfold parseMethod at h
  split at h
  · next hp => cases h; exact hlen hp
  split at h
  · next hp => cases h; exact hlen hp
  split at h
  · next hp => cases h; exact hlen hp
  split at h
  · next hp => cases h; exact hlen hp
  · simp at h

theorem parsePath_append_cons {l x : CStr} {c : Char} (hc : c = '\r' ∨ c = '?') {m : Method}
    (hm : parseMethod l = some m) : parsePath (l ++ c :: x) m = parsePath l m := by
  have hend : (!endsPath c) = false := by rcases hc with rfl | rfl <;> rfl
  rw [parsePath, parsePath, drop_append_of_le_length (skip_le_of_parseMethod hm),
    takeWhile_append_cons hend]

/-- The text up to the first `?` or CR is what the requests start with, and `c` is that character. -/
def SameStart (r r' : CStr) : Prop :=
  ∃ l c x x', (c = '\r' ∨ c = '?') ∧ '\x00' ∉ l ∧ r = l ++ c :: x ∧ r' = l ++ c :: x' ∧
    16 ≤ r.length ∧ 16 ≤ r'.length

theorem SameStart.early_eq {r r' : CStr} (h : SameStart r r') (stale stale' : CStr) :
    r.head? = r'.head? ∧ parseMethod (cstr (r ++ '\x00' :: stale)) =
      parseMethod (cstr (r' ++ '\x00' :: stale')) := by
  obtain ⟨l, c, x, x', hc, hl, rfl, rfl, -, -⟩ := h
  have hnul : c ≠ '\x00' := by rcases hc with rfl | rfl <;> decide
  refine ⟨by cases l <;> rfl, ?_⟩
  simp only [append_assoc, cons_append, cstr_append_cons hl hnul, parseMethod_append_cons hc]

theorem SameStart.asked_eq {r r' : CStr} (h : SameStart r r') (stale stale' : CStr) :
    asked r stale = asked r' stale' := by
  obtain ⟨hhead, hmethod⟩ := h.early_eq stale stale'
  obtain ⟨l, c, x, x', hc, hl, rfl, rfl, hlen, hlen'⟩ := h
  have hnul : c ≠ '\x00' := by rcases hc with rfl | rfl <;> decide
  rw [asked, asked, ← hhead]
  by_cases htls : (l ++ c :: x).head? = some '\x16'
  · rw [if_pos (Or.inl htls), if_pos (Or.inl htls)]
  rw [if_neg (by simp only [htls, false_or]; omega), if_neg (by simp only [htls, false_or]; omega)]
  simp only [append_assoc, cons_append, cstr_append_cons hl hnul, parseMethod_append_cons hc]
  cases hm : parseMethod l with
  | none => rfl
  | some m => cases m <;> simp [parsePath_append_cons hc hm]

theorem cstr_append_nul (x stale : CStr) : cstr (x ++ '\x00' :: stale) = cstr x :=
  takeWhile_append_cons rfl x stale

theorem toLower_mem_of_strcaseEq {a b : CStr} (h : strcaseEq a b = true) {c : Char} (hc : c ∈ a) :
    toLower c ∈ b.map toLower :=
  strcaseEq_iff.1 h ▸ mem_map_of_mem hc

theorem notMem_crlf_of_getLast {field : CStr} (h : strcaseEq field bearer = true) {c : Char}
    (hc : c ∈ field) : c ∉ "\r\n\r\n".toList := by
  intro hcr
  have hmem := toLower_mem_of_strcaseEq h hc
  have hlow : ∀ d ∈ "\r\n\r\n".toList, toLower d ∉ bearer.map toLower := by decide
  exact hlow c hcr hmem

theorem getBody_header {l field w post : CStr} (hl : '\x00' ∉ l)
    (hline : ¬ "\r\n\r\n".toList <:+: l ++ '\r' :: '\n' :: field)
    (hfield : strcaseEq field bearer = true)
    (hw : ∀ c ∈ w, c ≠ '\r' ∧ c ≠ '\n' ∧ c ≠ '\x00') (stale : CStr) :
    getBody (cstr (l ++ '\r' :: '\n' :: (field ++ (w ++ '\r' :: '\n' :: post)) ++ '\x00' :: stale)) =
      getBody ('\r' :: '\n' :: cstr post) := by
  have hne : field ≠ [] := by
    rintro rfl
    revert hfield
    decide
  have hplain : '\x00' ∉ l ++ '\r' :: '\n' :: (field ++ (w ++ ['\r', '\n'])) := by
    have hnul : '\x00' ∉ field := fun h =>
      absurd (toLower_mem_of_strcaseEq hfield h) (by decide)
    have hnulw : '\x00' ∉ w := fun h => (hw _ h).2.2 rfl
    simp [hl, hnul, hnulw]
  have hcstr : cstr (l ++ '\r' :: '\n' :: (field ++ (w ++ '\r' :: '\n' :: post)) ++ '\x00' :: stale) =
      (l ++ '\r' :: '\n' :: field) ++ (w ++ '\r' :: '\n' :: cstr post) := by
    rw [cstr_append_nul]
    have hsplit : l ++ '\r' :: '\n' :: (field ++ (w ++ '\r' :: '\n' :: post)) =
        (l ++ '\r' :: '\n' :: (field ++ (w ++ ['\r', '\n']))) ++ post := by simp
    rw [hsplit, cstr_append hplain]
    simp
  rw [hcstr, getBody, getBody, behind, behind, strstr_append_of_last hline, show
    "\r\n\r\n".toList = '\r' :: "\n\r\n".toList from rfl, strstr_append_of_notMem]
  · exact fun h => (hw _ h).1 rfl
  · intro c hc
    rw [getLast?_append_of_ne_nil _ (cons_ne_nil _ _), getLast?_cons_cons, getLast?_cons_of_ne_nil hne] at hc
    exact notMem_crlf_of_getLast hfield (mem_of_getLast? hc)

theorem getBody_param {pre w post : CStr} (hpre : ∀ c ∈ pre ++ w, c ≠ '\r' ∧ c ≠ '\x00')
    (stale : CStr) :
    getBody (cstr (pre ++ (w ++ post) ++ '\x00' :: stale)) = getBody (cstr post) := by
  have hcstr : cstr (pre ++ (w ++ post) ++ '\x00' :: stale) = (pre ++ w) ++ cstr post := by
    rw [cstr_append_nul, ← append_assoc, cstr_append fun h => (hpre _ h).2 rfl]
  have hnone : '\r' ∉ pre ++ w := fun h => (hpre _ h).1 rfl
  rw [hcstr, getBody, getBody, behind, behind]
  exact congrArg _ (strstr_append_of_notMem hnone)

theorem WrongToken.sameStart {r r' : CStr} (h : WrongToken r r') : SameStart r r' := by
  cases h with
  | header l field w w' post hl hline hfield hw =>
    have hlen : field.length = 22 := by
      have : field.length = bearer.length := by
        simpa only [length_map] using congrArg length (strcaseEq_iff.1 hfield)
      rw [this]
      decide
    refine ⟨l, '\r', _, _, Or.inl rfl, hl, rfl, rfl, ?_, ?_⟩
    · simp [hlen]
      omega
    · simp [hlen]
      omega
  | param l q w w' post hne hpost hl hw =>
    have hlen : 8 ≤ post.length := by simpa using hpost.length_le
    have hpos : 0 < l.length := length_pos_iff.2 hne
    refine ⟨l, '?', _, _, Or.inr rfl, fun h => (hl _ (mem_append_left q h)).2 rfl, rfl, rfl, ?_, ?_⟩
    · simp
      omega
    · simp
      omega

theorem WrongToken.getBody_eq {r r' : CStr} (h : WrongToken r r') (stale stale' : CStr) :
    getBody (cstr (r ++ '\x00' :: stale)) = getBody (cstr (r' ++ '\x00' :: stale')) := by
  cases h with
  | header l field w w' post hl hline hfield hw =>
    rw [getBody_header hl hline hfield fun c hc => hw c (mem_append_left _ hc),
      getBody_header hl hline hfield fun c hc => hw c (mem_append_right _ hc)]
  | param l q w w' post hne hpost hl hw =>
    have hpre (v : CStr) (hv : ∀ c ∈ v, c ∈ w ++ w') :
        ∀ c ∈ l ++ '?' :: (q ++ "token=".toList) ++ v, c ≠ '\r' ∧ c ≠ '\x00' := by
      intro c hc
      simp only [mem_append, mem_cons] at hc
      rcases hc with (hc | rfl | hc | hc) | hc
      · exact hl c (mem_append_left _ hc)
      · decide
      · exact hl c (mem_append_right _ hc)
      · revert c
        decide
      · exact ⟨(hw c (hv c hc)).2.2.1, (hw c (hv c hc)).2.2.2.2⟩
    have hassoc (v : CStr) : l ++ '?' :: (q ++ ("token=".toList ++ (v ++ post))) =
        (l ++ '?' :: (q ++ "token=".toList)) ++ (v ++ post) := by simp
    rw [hassoc w, hassoc w', getBody_param (hpre w fun c hc => mem_append_left _ hc),
      getBody_param (hpre w' fun c hc => mem_append_right _ hc)]

local instance neZero_three : NeZero 3 := ⟨by decide⟩

/-- What the paths in front of the checks give that have no handler. -/
def plainReply (method : Method) (path : CStr) : Reply :=
  if method = .options then .preflight
  else if method = .get ∧ path = "/".toList then .file 2
  else if method = .get ∧ path = "/favicon.ico".toList then .file 1
  else if method = .get ∧ path = "/apple-touch-icon.png".toList then .file 0
  else .notFound

theorem isGuarded_of_channelsPath {path : CStr} (h : channelsPath.isPrefixOf path = true) :
    isGuarded path = true := by
  have hpre : channelsPath <+: path := isPrefixOf_iff_prefix.1 h
  have hapi : "/api/".toList <+: path :=
    ( isPrefixOf_iff_prefix.1 (by decide)).trans hpre
  have hne : path ≠ authPath := by
    rintro rfl
    revert h
    decide
  simp only [isGuarded, isApi, Bool.or_eq_true, Bool.and_eq_true, bne_iff_ne]
  exact Or.inl ⟨ isPrefixOf_iff_prefix.2 hapi, hne⟩

theorem routeGet_plain {path mem : CStr} (hguard : isGuarded path = false)
    (hserved : (routeGet sha1 s path mem).isServed = false) :
    routeGet sha1 s path mem = plainReply .get path := by
  have hws : path ≠ "/ws".toList := by
    rintro rfl
    revert hguard
    decide
  have hchan : ¬ channelsPath.isPrefixOf path = true := fun h => by
    rw [isGuarded_of_channelsPath h] at hguard
    exact absurd hguard (by decide)
  have hplain : plainReply .get path =
      if path = "/".toList then .file 2
      else if path = "/favicon.ico".toList then .file 1
      else if path = "/apple-touch-icon.png".toList then .file 0
      else .notFound := by
    simp only [plainReply, true_and, reduceCtorEq, if_false]
  rw [hplain]
  revert hserved
  rw [routeGet]
  split
  · nofun
  split
  · nofun
  split
  · nofun
  split
  · exact fun _ => rfl
  split
  · exact fun _ => rfl
  split
  · exact fun _ => rfl
  split
  · cases upgrade sha1 mem with
    | none => exact fun _ => rfl
    | some accept => nofun
  · exact fun _ => rfl

theorem routePost_plain {path : CStr} {body : Option CStr}
    (hserved : (routePost path body).isServed = false) :
    routePost path body = plainReply .post path := by
  revert hserved
  rw [routePost]
  repeat' split
  all_goals simp [Reply.isServed, plainReply]

theorem routeDelete_plain {path : CStr} {body : Option CStr}
    (hserved : (routeDelete path body).isServed = false) :
    routeDelete path body = plainReply .delete path := by
  revert hserved
  rw [routeDelete]
  repeat' split
  all_goals simp [Reply.isServed, plainReply]

theorem route_plain {method : Method} {path mem : CStr}
    (hauth : ¬ (method = .post ∧ path = authPath)) (hguard : isGuarded path = false)
    (hserved : (route sha1 s ip method path mem).2.isServed = false) :
    (route sha1 s ip method path mem).2 = plainReply method path := by
  cases method with
  | get => exact routeGet_plain hguard hserved
  | post =>
    rw [route, if_neg fun h => hauth ⟨rfl, h⟩] at hserved ⊢
    exact routePost_plain hserved
  | delete => exact routeDelete_plain hserved
  | options => rfl

variable (sha1 s ip) in
/-- The request has no handler but behind the checks, and no text in it is taken for the token. -/
structure Clean (buf stale : CStr) : Prop where
  checked : reaches sha1 s ip buf stale = true →
    (asked buf stale).any (fun (_, path) => isGuarded path) = true
  absent : (asked buf stale).any (fun (_, path) => isGuarded path) = true →
    tokenFirst s.token buf stale = false

theorem Clean.reply_eq {buf stale path : CStr} {method : Method}
    (hclean : Clean sha1 s ip buf stale) (h : asked buf stale = some (method, path))
    (hauth : ¬ (method = .post ∧ path = authPath)) (htok : s.token ≠ []) :
    (webuiHttpActivity sha1 s ip buf stale).2 =
      if isGuarded path = true then .unauthorized else plainReply method path := by
  obtain ⟨hchecked, habsent⟩ := hclean
  simp only [h, Option.any_some, reaches] at hchecked habsent
  rw [activity_some sha1 ip h htok]
  by_cases hguard : isGuarded path = true
  · rw [if_pos ⟨hguard, Or.inr (habsent hguard)⟩, if_pos hguard]
  · rw [if_neg fun h' => hguard h'.1, if_neg hguard]
    exact route_plain hauth (by simpa using hguard)
      (by simpa using fun h' => hguard (hchecked h'))

theorem WrongToken.reply_eq {r r' : CStr} (h : WrongToken r r') {stale stale' : CStr}
    (hr : Clean sha1 s ip r stale) (hr' : Clean sha1 s ip r' stale') (htok : s.token ≠ []) :
    (webuiHttpActivity sha1 s ip r stale).2 = (webuiHttpActivity sha1 s ip r' stale').2 := by
  have hasked := h.sameStart.asked_eq stale stale'
  have hbody := h.getBody_eq stale stale'
  cases hcase : asked r stale with
  | none =>
    rw [activity_none sha1 s ip hcase, activity_none sha1 s ip (hasked ▸ hcase)]
    obtain ⟨hhead, hmethod⟩ := h.sameStart.early_eq stale stale'
    obtain ⟨l, c, x, x', hc, hl, rfl, rfl, hlen, hlen'⟩ := h.sameStart
    rw [hhead, hmethod]
    simp only [Nat.not_lt.2 hlen, Nat.not_lt.2 hlen']
  | some mp =>
    obtain ⟨method, path⟩ := mp
    have hcase' := hasked ▸ hcase
    by_cases hauth : method = .post ∧ path = authPath
    · obtain ⟨rfl, rfl⟩ := hauth
      have hguard : ¬ isGuarded authPath = true := by decide
      rw [activity_some sha1 ip hcase htok, activity_some sha1 ip hcase' htok, if_neg fun h' => hguard h'.1,
        if_neg fun h' => hguard h'.1, route, route, if_pos rfl, if_pos rfl, hbody]
    · rw [hr.reply_eq hcase hauth htok, hr'.reply_eq hcase' hauth htok]

theorem apiAuthPost_wrong {body : Option CStr} (htok : s.token ≠ [])
    (hbody : (body.bind fun body => jsonGetStr body "token".toList 65).getD [] ≠ s.token) :
    (apiAuthPost s ip body).2 = .unauthorized := by
  have htoken : (s.authIpCheck ip).1.token = s.token := authIpCheck_token
  unfold apiAuthPost
  dsimp only
  split
  · rfl
  cases body with
  | none => rfl
  | some body =>
    rw [Option.bind_some] at hbody
    dsimp only
    rw [htoken, if_neg (not_or.2 ⟨htok, hbody⟩)]

theorem bodyToken_wrong {buf stale : CStr} (h : asksAuth buf stale) (htok : s.token ≠ [])
    (hbody : bodyToken buf stale ≠ s.token) :
    (webuiHttpActivity sha1 s ip buf stale).2 = .unauthorized := by
  have hguard : ¬ isGuarded authPath = true := by decide
  rw [activity_some sha1 ip h htok, if_neg fun h' => hguard h'.1, route, if_pos rfl]
  exact apiAuthPost_wrong htok hbody

end Pairs

/-! ### The checks as a whole -/

/-- With a token configured: single requests are treated as they should be exactly if the token is
placed where the checks look for it; requests with wrong tokens in their headers or queries are
answered alike, and so are those to the authentication endpoint. -/
theorem token_checked (sha1 : CStr → CStr) (s : State) (ip : CStr) (htok : s.token ≠ []) :
    (∀ req seen stale, Right sha1 s ip req seen stale ↔ Placed sha1 s ip req seen stale) ∧
    (∀ r r' stale stale', WrongToken r r' → Clean sha1 s ip r stale → Clean sha1 s ip r' stale' →
      (webuiHttpActivity sha1 s ip r stale).2 = (webuiHttpActivity sha1 s ip r' stale').2) ∧
    ∀ r r' stale stale', asksAuth r stale → asksAuth r' stale' →
      bodyToken r stale ≠ s.token → bodyToken r' stale' ≠ s.token →
      (webuiHttpActivity sha1 s ip r stale).2 = (webuiHttpActivity sha1 s ip r' stale').2 := by
  refine ⟨fun req seen stale => right_iff sha1 s ip req seen stale htok,
    fun r r' stale stale' h hr hr' => h.reply_eq hr hr' htok, ?_⟩
  intro r r' stale stale' h h' hwrong hwrong'
  rw [bodyToken_wrong h htok hwrong, bodyToken_wrong h' htok hwrong']

/-- A server with the token `secret`, to which nothing has happened. -/
def secretState : State := ⟨"secret".toList, 0, fun _ => none, 0⟩

/-- The SHA-1 digest of the key `dGhlIHNhbXBsZSBub25jZQ==` with the GUID behind it. -/
def sampleDigest : CStr :=
  [0xb3, 0x7a, 0x4f, 0x2c, 0xc0, 0x62, 0x4f, 0x16, 0x90, 0xf6, 0x46, 0x06, 0xcf, 0x38, 0x59, 0x45,
    0xb2, 0xbe, 0xc4, 0xea].map Char.ofNat

/-- A request for `/ws` with this token. -/
def wsRequest (token : CStr) : CStr :=
  "GET /ws".toList ++ '?' :: ([] ++ ("token=".toList ++ (token ++ " HTTP/1.1\r\n\r\n".toList)))

/-- A request to the authentication endpoint with this token. -/
def authRequest (token : CStr) : CStr :=
  "POST /api/auth HTTP/1.1\r\n\r\n\x7b\"token\":\"".toList ++ (token ++ "\"\x7d".toList)

theorem token_checked_secret :
    (∀ req seen stale, Right (fun _ => sampleDigest) secretState "unknown".toList req seen stale ↔
      Placed (fun _ => sampleDigest) secretState "unknown".toList req seen stale) ∧
    (webuiHttpActivity (fun _ => sampleDigest) secretState "unknown".toList
        (wsRequest "a".toList) []).2 =
      (webuiHttpActivity (fun _ => sampleDigest) secretState "unknown".toList
        (wsRequest "sesame".toList) []).2 ∧
    (webuiHttpActivity (fun _ => sampleDigest) secretState "unknown".toList
        (authRequest "a".toList) []).2 =
      (webuiHttpActivity (fun _ => sampleDigest) secretState "unknown".toList
        (authRequest "sesame".toList) []).2 := by
  obtain ⟨hright, halike, hauth⟩ :=
    token_checked (fun _ => sampleDigest) secretState "unknown".toList (by decide)
  refine ⟨hright, halike _ _ [] [] ?_ ⟨?_, ?_⟩ ⟨?_, ?_⟩, hauth _ _ [] [] ?_ ?_ ?_ ?_⟩
  · exact .param _ [] _ _ _ (by decide) (by decide) (by decide) (by decide)
  all_goals decide +kernel

/-- An upgrade of `/w` without any token. -/
def partylineRequest : CStr :=
  "GET /w HTTP/1.1\r\nSec-WebSocket-Key: dGhlIHNhbXBsZSBub25jZQ==\r\n\r\n".toList

/-- The upgrade of `/w` is made for everybody. -/
theorem not_token_checked :
    ¬ ∀ (sha1 : CStr → CStr) (s : State) (ip req stale : CStr), s.token ≠ [] →
      Right sha1 s ip req req stale := by
  intro h
  have hright := h (fun _ => sampleDigest) secretState "unknown".toList partylineRequest []
    (by decide)
  exact absurd (hright.served (by decide +kernel)) (by decide +kernel)

end Eggdrop.Webui
