import Eggdrop.Base.Base64
import Eggdrop.Lib.Substr

/-!
# Http — requests to the web interface (webui.c)

What a read of a web socket hands in is taken for a whole request: `webui_http_activity` finds the
method and the path at its head, asks for the token where the path wants one, and hands the request
to the handler of the path.  The handlers themselves stand here by name and with what they are
given; what they do is not needed to tell which of them runs.

The buffer is the text read, a NUL, and what is left behind it of earlier reads.
-/

namespace Eggdrop.Webui

/-- `HTTP_GET` and its like; none for `HTTP_UNKNOWN`. -/
inductive Method
  | get | post | delete | options
  deriving DecidableEq

/-- The text of a `char` array up to its NUL. -/
def cstr (buf : CStr) : CStr := buf.takeWhile (· != '\x00')

def parseMethod (buf : CStr) : Option Method :=
  if "GET ".toList.isPrefixOf buf then some .get
  else if "POST ".toList.isPrefixOf buf then some .post
  else if "DELETE ".toList.isPrefixOf buf then some .delete
  else if "OPTIONS ".toList.isPrefixOf buf then some .options
  else none

/-- Where the path starts. -/
def Method.skip : Method → ℕ
  | .get => 4
  | .post => 5
  | .delete => 7
  | .options => 8

/-- Ends of a path. -/
def endsPath (c : Char) : Bool := c == ' ' || c == '?' || c == '\r'

/-- `parse_path` into 128 bytes. -/
def parsePath (buf : CStr) (method : Method) : CStr :=
  ((buf.drop method.skip).takeWhile fun c => !endsPath c).take 127

/-- `get_body`. -/
def getBody (buf : CStr) : Option CStr := behind buf "\r\n\r\n".toList

/-! ### The token -/

def bearer : CStr := "Authorization: Bearer ".toList

def tokenQuery : CStr := "?token=".toList

/-- The end of the token in a header. -/
def endsBearer (c : Char) : Bool := c == '\r' || c == '\n'

/-- The end of the token in a query. -/
def endsQuery (c : Char) : Bool := c == ' ' || c == '&'

/-- `!strncmp(s, token, tlen)` and one of the ends, or that of the text, behind it. -/
def tokenAt (ends : Char → Bool) (token s : CStr) : Bool :=
  token.isPrefixOf s && (s.drop token.length).head?.all ends

def checkAuth (token buf : CStr) : Bool :=
  token.isEmpty || (behind buf bearer).any (tokenAt endsBearer token) ||
    (behind buf tokenQuery).any (tokenAt endsQuery token)

/-- `auth_fail_t`. -/
structure AuthFail where
  count : ℕ
  windowStart : ℤ
  blockedUntil : ℤ
  deriving DecidableEq

/-- `webui_token`, `now`, `auth_fail_ht` and `ws_push_count`. -/
structure State where
  token : CStr
  now : ℤ
  authFail : CStr → Option AuthFail
  wsPushCount : ℕ

def State.setFail (s : State) (ip : CStr) (af : AuthFail) : State :=
  { s with authFail := fun i => if i = ip then some af else s.authFail i }

/-- Whether the address is shut out at this time. -/
def State.isBlocked (s : State) (ip : CStr) : Bool :=
  (s.authFail ip).any fun af => af.blockedUntil != 0 && decide (s.now < af.blockedUntil)

/-- `auth_ip_check`: a block that is over is cleared. -/
def State.authIpCheck (s : State) (ip : CStr) : State × Bool :=
  match s.authFail ip with
  | none => (s, false)
  | some af =>
    if af.blockedUntil ≠ 0 ∧ s.now < af.blockedUntil then (s, true)
    else if af.blockedUntil ≠ 0 ∧ af.blockedUntil ≤ s.now then
      (s.setFail ip { af with blockedUntil := 0 }, false)
    else (s, false)

/-- `auth_ip_fail`: three failures within a minute shut the address out for half a minute. -/
def State.authIpFail (s : State) (ip : CStr) : State :=
  let af := (s.authFail ip).getD ⟨0, s.now, 0⟩
  let af := if 60 < s.now - af.windowStart then ⟨0, s.now, 0⟩ else af
  let count := (af.count + 1) % 2 ^ 32
  s.setFail ip
    { af with count := count, blockedUntil := if 3 ≤ count then s.now + 30 else af.blockedUntil }

def State.authIpSucceed (s : State) (ip : CStr) : State :=
  match s.authFail ip with
  | none => s
  | some _ => s.setFail ip ⟨0, 0, 0⟩

/-- The check in front of the API, and once more in front of `/ws`: whether the request may pass. -/
def State.authGate (s : State) (ip buf : CStr) : State × Bool :=
  let (s, blocked) := s.authIpCheck ip
  if blocked then (s, false)
  else if checkAuth s.token buf then (s.authIpSucceed ip, true)
  else (s.authIpFail ip, false)

/-! ### JSON in, and coded paths -/

/-- The loop of `json_get_str`, with room for `n` characters more. -/
def jsonStr : ℕ → CStr → CStr
  | 0, _ => []
  | _ + 1, [] => []
  | _ + 1, '"' :: _ => []
  | n + 1, '\\' :: c :: p => c :: jsonStr n p
  | n + 1, c :: p => c :: jsonStr n p

/-- `json_get_str` into `outsz` bytes. -/
def jsonGetStr (json key : CStr) (outsz : ℕ) : Option CStr :=
  match (behind json ('"' :: (key ++ ['"']))).map (·.dropWhile fun c => c == ' ' || c == ':') with
  | some ('"' :: p) => some (jsonStr (outsz - 1) p)
  | _ => none

def hexDigit (c : Char) : Option ℕ :=
  if '0' ≤ c ∧ c ≤ '9' then some (c.toNat - '0'.toNat)
  else if 'a' ≤ c ∧ c ≤ 'f' then some (c.toNat - 'a'.toNat + 10)
  else if 'A' ≤ c ∧ c ≤ 'F' then some (c.toNat - 'A'.toNat + 10)
  else none

/-- `(char) strtol(hex, nullptr, 16)` for two characters: blanks and a sign may stand for the
first. -/
def hexChar (a b : Char) : Char :=
  match hexDigit a, hexDigit b with
  | some x, some y => Char.ofNat (16 * x + y)
  | some x, none => Char.ofNat x
  | none, some y =>
    if isSpace a || a == '+' then Char.ofNat y
    else if a == '-' then Char.ofNat ((256 - y) % 256)
    else '\x00'
  | none, none => '\x00'

/-- `url_decode`; the text ends at a NUL that was coded. -/
def urlDecode (s : CStr) : CStr := cstr (decode s)
where
  decode : CStr → CStr
    | '%' :: a :: b :: s => hexChar a b :: decode s
    | c :: s => c :: decode s
    | [] => []

/-! ### Handlers -/

/-- The handlers of one path each, for `GET`. -/
inductive Get
  | status | channels | usersList | traffic | perf | logs | ignores | modules | botnet | dcc
  | timers | config | userfileGet | serverIsupport | modulesHooks | trafficHistory
  deriving DecidableEq

/-- The handlers of what belongs to a channel, for `GET`. -/
inductive ChannelGet
  | members | bans | exempts | invites | chanset
  deriving DecidableEq

/-- The handlers of one path each, for `POST`; `restart`, `save` and `rehash` do not look at the
body. -/
inductive Post
  | say | kick | restart | users | ignores | raw | save | rehash | die | nick | topic | join | part
  | mode | ban | unban | op | deop | voice | devoice | kickban | invite | chpass | jump | loadmod
  | unloadmod | tcl | loadscript | msg | act | notice | ctcp | config
  deriving DecidableEq

/-- A call of a handler of the API other than `api_auth_post`. -/
inductive Api
  | get (g : Get)
  | userDetail (handle : CStr)
  | logsSearch (buf : CStr)
  | channel (g : ChannelGet) (channame : CStr)
  | channelDetail (channame : CStr)
  | post (p : Post) (body : Option CStr)
  | chansetPost (body : Option CStr) (channame : CStr)
  | channelTopicPost (body : Option CStr) (channame : CStr)
  | userFlagsPost (body : Option CStr) (handle : CStr)
  | userHostsPost (body : Option CStr) (handle : CStr)
  | userHostsDelete (body : Option CStr) (handle : CStr)
  | userDelete (handle : CStr)
  | ignoresDelete (body : Option CStr)
  | timersDelete (body : Option CStr)
  deriving DecidableEq

/-- What a request gets. -/
inductive Reply
  /-- the TLS alert, to a handshake on a port without TLS -/
  | alert
  /-- the socket is closed without an answer -/
  | closed
  | notFound
  | preflight
  /-- `send_401` -/
  | unauthorized
  /-- `put_file` -/
  | file (i : Fin 3)
  | api (a : Api)
  /-- `api_auth_post`, which took the token -/
  | authOk
  /-- the socket goes over to the party line -/
  | partyline (accept : CStr)
  /-- the socket goes over to the push clients -/
  | push (accept : CStr)
  /-- the upgrade is answered, and the socket closed for want of room -/
  | pushFull (accept : CStr)
  deriving DecidableEq

/-! ### Routing -/

def getRoutes : List (CStr × Get) :=
  [("/api/status".toList, .status), ("/api/channels".toList, .channels),
   ("/api/users".toList, .usersList), ("/api/traffic".toList, .traffic),
   ("/api/perf".toList, .perf), ("/api/logs".toList, .logs), ("/api/ignores".toList, .ignores),
   ("/api/modules".toList, .modules), ("/api/botnet".toList, .botnet), ("/api/dcc".toList, .dcc),
   ("/api/timers".toList, .timers), ("/api/config".toList, .config),
   ("/api/userfile".toList, .userfileGet), ("/api/server/isupport".toList, .serverIsupport),
   ("/api/modules/hooks".toList, .modulesHooks),
   ("/api/traffic/history".toList, .trafficHistory)]

def postRoutes : List (CStr × Post) :=
  [("/api/say".toList, .say), ("/api/kick".toList, .kick), ("/api/restart".toList, .restart),
   ("/api/users".toList, .users), ("/api/ignores".toList, .ignores), ("/api/raw".toList, .raw),
   ("/api/save".toList, .save), ("/api/rehash".toList, .rehash), ("/api/die".toList, .die),
   ("/api/nick".toList, .nick), ("/api/topic".toList, .topic), ("/api/join".toList, .join),
   ("/api/part".toList, .part), ("/api/mode".toList, .mode), ("/api/ban".toList, .ban),
   ("/api/unban".toList, .unban), ("/api/op".toList, .op), ("/api/deop".toList, .deop),
   ("/api/voice".toList, .voice), ("/api/devoice".toList, .devoice),
   ("/api/kickban".toList, .kickban), ("/api/invite".toList, .invite),
   ("/api/chpass".toList, .chpass), ("/api/jump".toList, .jump), ("/api/loadmod".toList, .loadmod),
   ("/api/unloadmod".toList, .unloadmod), ("/api/tcl".toList, .tcl),
   ("/api/loadscript".toList, .loadscript), ("/api/msg".toList, .msg), ("/api/act".toList, .act),
   ("/api/notice".toList, .notice), ("/api/ctcp".toList, .ctcp), ("/api/config".toList, .config)]

def channelsPath : CStr := "/api/channels/".toList

def usersPath : CStr := "/api/users/".toList

/-- `strchr(rest, '/')`: what stands before the slash, cut to `max` characters and decoded, and
what stands behind it. -/
def splitSlash (max : ℕ) (rest : CStr) : Option (CStr × CStr) :=
  if '/' ∈ rest then
    some (urlDecode ((rest.takeWhile (· != '/')).take max), (rest.dropWhile (· != '/')).drop 1)
  else none

/-- `CHANNELLEN`. -/
def channelLen : ℕ := 200

/-- `GET /api/channels/<name>` and what lies below it. -/
def routeChannelGet (rest : CStr) : Reply :=
  match splitSlash channelLen rest with
  | some (channame, sub) =>
    if sub = "members".toList then .api (.channel .members channame)
    else if sub = "bans".toList then .api (.channel .bans channame)
    else if sub = "exempts".toList then .api (.channel .exempts channame)
    else if sub = "invites".toList then .api (.channel .invites channame)
    else if sub = "settings".toList then .api (.channel .chanset channame)
    else .notFound
  | none => .api (.channelDetail (urlDecode (rest.take channelLen)))

def routePost (path : CStr) (body : Option CStr) : Reply :=
  match postRoutes.lookup path with
  | some p => .api (.post p body)
  | none =>
    if channelsPath.isPrefixOf path then
      match splitSlash channelLen (path.drop channelsPath.length) with
      | some (channame, sub) =>
        if sub = "settings".toList then .api (.chansetPost body channame)
        else if sub = "topic".toList then .api (.channelTopicPost body channame)
        else .notFound
      | none => .notFound
    else if usersPath.isPrefixOf path then
      match splitSlash handLen (path.drop usersPath.length) with
      | some (handle, sub) =>
        if sub = "flags".toList then .api (.userFlagsPost body handle)
        else if sub = "hosts".toList then .api (.userHostsPost body handle)
        else .notFound
      | none => .notFound
    else .notFound

def routeDelete (path : CStr) (body : Option CStr) : Reply :=
  if usersPath.isPrefixOf path ∧ path ≠ usersPath then
    match splitSlash handLen (path.drop usersPath.length) with
    | some (handle, sub) =>
      if sub = "hosts".toList then .api (.userHostsDelete body handle) else .notFound
    | none => .api (.userDelete (urlDecode ((path.drop usersPath.length).take handLen)))
  else if path = "/api/ignores".toList then .api (.ignoresDelete body)
  else if path = "/api/timers".toList then .api (.timersDelete body)
  else .notFound

def wsKey : CStr := "Sec-WebSocket-Key:".toList

/-- The key of an upgrade: from `sizeof WS_KEY` bytes behind the start of the header's name on, so
that one character more than the name is skipped, be it the NUL. -/
def upgradeKey (mem : CStr) : Option CStr :=
  match strstr (cstr mem) wsKey with
  | none => none
  | some found =>
    let key := (mem.drop ((cstr mem).length - found.length + (wsKey.length + 1))).take 24
    if key.length = 24 ∧ '\x00' ∉ key then some key else none

def wsGuid : CStr := "258EAFA5-E914-47DA-95CA-C5AB0DC85B11".toList

/-- `Sec-WebSocket-Accept` for the request, where it is an upgrade. -/
def upgrade (sha1 : CStr → CStr) (mem : CStr) : Option CStr :=
  match upgradeKey mem with
  | none => none
  | some key =>
    match b64Ntop (sha1 (key ++ wsGuid)) 29 with
    | some out => if out.length = 28 then some out else none
    | none => none

/-- `MAX_WS_PUSH`. -/
def maxWsPush : ℕ := 8

def routeGet (sha1 : CStr → CStr) (s : State) (path mem : CStr) : Reply :=
  match getRoutes.lookup path with
  | some g => .api (.get g)
  | none =>
    if usersPath.isPrefixOf path ∧ path ≠ usersPath then
      .api (.userDetail (urlDecode ((path.drop usersPath.length).take handLen)))
    else if path = "/api/logs/search".toList then .api (.logsSearch (cstr mem))
    else if channelsPath.isPrefixOf path then routeChannelGet (path.drop channelsPath.length)
    else if path = "/".toList then .file 2
    else if path = "/favicon.ico".toList then .file 1
    else if path = "/apple-touch-icon.png".toList then .file 0
    else if path = "/w".toList then ((upgrade sha1 mem).map Reply.partyline).getD .notFound
    else if path = "/ws".toList then
      match upgrade sha1 mem with
      | none => .notFound
      | some accept => if maxWsPush ≤ s.wsPushCount then .pushFull accept else .push accept
    else .notFound

/-- `api_auth_post`. -/
def apiAuthPost (s : State) (ip : CStr) (body : Option CStr) : State × Reply :=
  let (s, blocked) := s.authIpCheck ip
  if blocked then (s, .unauthorized)
  else
    match body with
    | none => (s.authIpFail ip, .unauthorized)
    | some body =>
      if s.token = [] ∨ (jsonGetStr body "token".toList 65).getD [] = s.token then
        (s.authIpSucceed ip, .authOk)
      else (s.authIpFail ip, .unauthorized)

def authPath : CStr := "/api/auth".toList

/-- The paths in front of which the token is asked for. -/
def isApi (path : CStr) : Bool := "/api/".toList.isPrefixOf path && path != authPath

def isWs (path : CStr) : Bool := path == "/ws".toList

/-- The routes of a method, behind the checks. -/
def route (sha1 : CStr → CStr) (s : State) (ip : CStr) (method : Method) (path mem : CStr) :
    State × Reply :=
  match method with
  | .get => (s, routeGet sha1 s path mem)
  | .post =>
    if path = authPath then apiAuthPost s ip (getBody (cstr mem))
    else (s, routePost path (getBody (cstr mem)))
  | .delete => (s, routeDelete path (getBody (cstr mem)))
  | .options => (s, .preflight)

/-- `webui_http_activity`: `buf` is what was read, `stale` what the buffer holds behind the NUL that
closes it, `ip` the address of the socket or `unknown`. -/
def webuiHttpActivity (sha1 : CStr → CStr) (s : State) (ip buf stale : CStr) : State × Reply :=
  let mem := buf ++ '\x00' :: stale
  if buf.head? = some '\x16' then (s, .alert)
  else
    match parseMethod (cstr mem) with
    | none => (s, .closed)
    | some method =>
      if buf.length < 16 then (s, .closed)
      else
        let path := parsePath (cstr mem) method
        if method = .options then (s, .preflight)
        else if isApi path then
          let (s, passed) := s.authGate ip (cstr mem)
          if passed then route sha1 s ip method path mem else (s, .unauthorized)
        else if isWs path then
          let (s, passed) := s.authGate ip (cstr mem)
          if passed then route sha1 s ip method path mem else (s, .unauthorized)
        else route sha1 s ip method path mem

end Eggdrop.Webui
