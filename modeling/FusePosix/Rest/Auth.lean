import FusePosix.Rest.State
import FusePosix.Utils.Path

/-!
# Authentication

A user needs a token of a server before the server answers. `authenticateUser` is called at the top
of every callback: it is content with a token that is still valid and otherwise asks the server for
a new one, in the way the settings of the server name.

* In the modes `userpass` and `x509` the token comes back in the headers of one request. The two
  functions differ in the request only; `receiveToken` is what they share.
* In the mode `oidc` the user has to log in at the identity provider. A thread takes care of that
  (`oidcLoginEnds`), and the callback is refused for now. The synchronous variant is used once, when
  a server is validated at start-up.

What is stored is not what is returned. `receiveToken` stores `rucioInvalidToken` for a response
without a token line, and whatever expiry it can make of the response, and answers `tokenOk` in any
case.

**Assumed**: a login thread finds the server, the user and the place for the token that it was
started with. The source hands it an array of pointers in the frame of `GET_OIDC_ASYNC`, most of
them to the parameters of that function, and returns at once; the thread reads them when it runs,
and may find what another call has left there.
-/

namespace FusePosix

/-- The return codes of the authentication functions. -/
inductive AuthResult where
  | tokenOk
  | serverNotLoaded
  | cannotAuth
  | tokenError
  | curlError
  deriving DecidableEq, Repr

/-! ### Validity -/

/-- Whether a token may be used at a time: it is not the invalid one and has not expired. -/
def TokenInfo.validAt (info : TokenInfo) (now : ℤ) : Bool :=
  info.connToken ≠ rucioInvalidToken && 0 ≤ info.connTokenExpEpoch - now

/-- `rucio_is_token_valid`. -/
def rucioIsTokenValid (io : Io) (shortServerName : Str) (uid : ℕ) (s : State) : Bool × State :=
  match getServerToken s.servers shortServerName uid with
  | (none, _) => (false, s)
  | (some tokenInfo, servers) => (tokenInfo.validAt io.now, { s with servers })

/-! ### Token by request -/

/-- Whether a C string has a character in front of its terminator. -/
def cStrNonempty (s : Str) : Bool := cStr s ≠ []

/-- The loop over the lines of a response: the token and the expiry of the last lines that carry
one, or nothing if the user is refused. -/
def tokenLines : List Str → Str → Str → Option (Str × Str)
  | [], token, expireTimeString => some (token, expireTimeString)
  | line :: payload, token, expireTimeString =>
    if (Text.find rucioTokenExceptionPrefix line).isSome then none
    else
      let token := if (Text.find rucioTokenPrefix line).isSome then
        Text.eraseAt 0 rucioTokenPrefix.length line else token
      let expireTimeString := if (Text.find rucioTokenDurationPrefix line).isSome then
        Text.eraseAt 0 rucioTokenDurationPrefix.length line else expireTimeString
      tokenLines payload token expireTimeString

/-- The broken-down expiry time, as it is handed to `mktime`. -/
def expiryTime (io : Io) (previous : Tm) (expireTimeString : Str) : Tm :=
  let expireTimeString :=
    if cStrNonempty expireTimeString then expireTimeString else rucioDefaultExp
  let connTokenExp := io.strptime (cStr expireTimeString) previous
  { connTokenExp with zone := "UTC".toList }

/-- What is stored for a response, on top of what was stored before. -/
def TokenInfo.renewed (io : Io) (info : TokenInfo) (token expireTimeString : Str) : TokenInfo where
  connToken := if cStrNonempty token then token else rucioInvalidToken
  connTokenExp := (io.mktime (expiryTime io info.connTokenExp expireTimeString)).2
  connTokenExpEpoch :=
    (io.mktime (expiryTime io info.connTokenExp expireTimeString)).1 - io.timezone

/-- What both request modes do with the response. -/
def receiveToken (io : Io) (shortServerName : Str) (uid : ℕ) (curlRes : CurlRet) (s : State) :
    AuthResult × State :=
  if !curlRes.ok then (.curlError, s)
  else match tokenLines curlRes.payload [] [] with
    | none => (.cannotAuth, s)
    | some (token, expireTimeString) =>
      match getServerToken s.servers shortServerName uid with
      | (none, _) => (.tokenError, s)
      | (some tokenInfo, servers) =>
        let tokenInfo := tokenInfo.renewed io token expireTimeString
        (.tokenOk, { s with servers := storeToken servers shortServerName uid tokenInfo })

/-- What is stored once the lines of a response have been read. -/
theorem receiveToken_of_lines {io : Io} {server : Str} {uid : ℕ} {ret : CurlRet} {s : State}
    {token expireTimeString : Str} {srv : RucioServer} (hok : ret.ok = true)
    (hlines : tokenLines ret.payload [] [] = some (token, expireTimeString))
    (hfind : s.servers.find server = some srv) :
    receiveToken io server uid ret s = (.tokenOk, { s with
      servers := storeToken (storeToken s.servers server uid (srv.token uid)) server uid
        ((srv.token uid).renewed io token expireTimeString) }) := by
  rw [receiveToken, hok, hlines, getServerToken_of_find hfind]
  rfl

/-- The request of the mode `userpass`. -/
def userpassRequest (connParams : ConnectionParameters) : Request where
  url := connParams.serverUrl ++ "/auth/userpass".toList
  caPath := connParams.caPath
  headers := [
    "X-Rucio-Account: ".toList ++ connParams.accountName,
    "X-Rucio-Username: ".toList ++ connParams.userName,
    "X-Rucio-Password: ".toList ++ connParams.password]
  includeHeaders := true
  timeout := defaultTimeout

/-- The request of the mode `x509`. -/
def x509Request (connParams : ConnectionParameters) (bundle : CurlX509Bundle) : Request where
  url := connParams.serverUrl ++ "/auth/x509".toList
  headers := ["X-Rucio-Account: ".toList ++ connParams.accountName]
  includeHeaders := true
  bundle := some bundle

/-- `rucio_get_auth_token_userpass`. -/
def rucioGetAuthTokenUserpass (io : Io) (shortServerName : Str) (caller : Caller) (s : State) :
    Except Fault (AuthResult × State) :=
  match getServerParams s.servers shortServerName with
  | none => return (.serverNotLoaded, s)
  | some connParams =>
    let curlRes := safeGET io (userpassRequest connParams) s
    return receiveToken io shortServerName caller.uid curlRes.1 curlRes.2

/-- `rucio_get_auth_token_x509`. -/
def rucioGetAuthTokenX509 (io : Io) (shortServerName : Str) (caller : Caller) (s : State) :
    Except Fault (AuthResult × State) :=
  match getServerParams s.servers shortServerName with
  | none => return (.serverNotLoaded, s)
  | some connParams => do
    let bundle ← deref (getServerSSLBundle io.readFile s.servers shortServerName)
    let curlRes := curlGET io (x509Request connParams bundle) s
    return receiveToken io shortServerName caller.uid curlRes.1 curlRes.2

/-! ### Token by login -/

/-- Drop the line ends at the end of a text. -/
def dropLineEnds (s : Str) : Str :=
  (s.reverse.dropWhile fun c ↦ c == '\n' || c == '\r').reverse

/-- `GET_OIDC`: the token of a login, empty if there is none. -/
def getOIDC (run : OidcRun) : Str :=
  if !run.ptyOpened then []
  else if !run.forked then []
  else if !run.exitedZero then []
  else match run.tokenFile with
    | none => []
    | some token => dropLineEnds token

/-- Store a token and the expiry it carries. -/
def storeOidcToken (io : Io) (shortServerName : Str) (uid : ℕ) (token : Str) (s : State) :
    Except Fault State := do
  let exp ← getTokenExpiry io.jsonExp token
  -- the expiry is written to the log in local time and in UTC
  let _ ← deref (io.localtime exp)
  let connTokenExp ← deref (io.gmtime exp)
  let tokenInfo : TokenInfo := {
    connToken := if cStrNonempty token then token else rucioInvalidToken
    connTokenExp
    connTokenExpEpoch := exp }
  return { s with servers := storeToken s.servers shortServerName uid tokenInfo }

/-- If a token can be stored, only the token changes. -/
theorem exists_of_storeOidcToken {io : Io} {server : Str} {uid : ℕ} {token : Str} {s t : State}
    (h : storeOidcToken io server uid token s = .ok t) :
    ∃ info, t = { s with servers := storeToken s.servers server uid info } := by
  obtain ⟨exp, -, h⟩ := bind_eq_ok.1 h
  obtain ⟨localTime, -, h⟩ := bind_eq_ok.1 h
  obtain ⟨connTokenExp, -, h⟩ := bind_eq_ok.1 h
  exact ⟨_, (Except.ok.inj h).symm⟩

/-- `GET_OIDC_ASYNC`: start a login thread. There is no token yet. What the thread is to work on is
kept with it; the source leaves it in its own frame and hopes that it lasts. -/
def getOIDCAsync (io : Io) (shortServerName : Str) (caller : Caller) (s : State) : Str × State :=
  ([], if io.threadStarts then { s with logins := s.logins ++ [⟨shortServerName, caller⟩] } else s)

/-- `GET_OIDC_wrapper`, the end of login thread `k`, which has found its own arguments. An exception
leaves the thread and with it the program. -/
def oidcLoginEnds (io : Io) (k : ℕ) (s : State) : Except Fault State := do
  let login ← deref s.logins[k]?
  let s := { s with logins := s.logins.eraseIdx k }
  let token := getOIDC io.oidc
  if token.length = 0 then return s
  else storeOidcToken io login.server login.caller.uid token s

/-- `rucio_get_auth_token_oidc`. -/
def rucioGetAuthTokenOidc (io : Io) (shortServerName : Str) (caller : Caller) (async : Bool)
    (s : State) : Except Fault (AuthResult × State) :=
  match getServerParams s.servers shortServerName with
  | none => return (.serverNotLoaded, s)
  | some _ => do
    let _ ← deref (getServerOIDCBundle s.servers shortServerName)
    let (token, s) :=
      if async then
        -- the thread gets the address of the stored token, which is looked up for it
        let servers := (getServerToken s.servers shortServerName caller.uid).2
        getOIDCAsync io shortServerName caller { s with servers }
      else (getOIDC io.oidc, s)
    if token.length = 0 then return (.tokenError, s)
    else match getServerToken s.servers shortServerName caller.uid with
      | (none, _) => return (.tokenError, s)
      | (some _, servers) =>
        return (.tokenOk, ← storeOidcToken io shortServerName caller.uid token { s with servers })

/-! ### The gate -/

/-- Ask for a token in the way the server's settings name. -/
def requestToken (io : Io) (mode : AuthMode) (shortServerName : Str) (caller : Caller) (s : State) :
    Except Fault (AuthResult × State) :=
  match mode with
  | .userpass => rucioGetAuthTokenUserpass io shortServerName caller s
  | .x509 => rucioGetAuthTokenX509 io shortServerName caller s
  | .oidc => rucioGetAuthTokenOidc io shortServerName caller true s
  | .none => return (.tokenError, s)

/-- `rucio_get_auth_token`. -/
def rucioGetAuthToken (io : Io) (shortServerName : Str) (caller : Caller) (s : State) :
    Except Fault (AuthResult × State) := do
  let connParams ← deref (getServerParams s.servers shortServerName)
  requestToken io connParams.rucioAuthMode shortServerName caller s

/-- `authenticate_user`. -/
def authenticateUser (io : Io) (path : Str) (caller : Caller) (s : State) :
    Except Fault (AuthResult × State) :=
  let shortServerName := extractServerName path
  let (isTokenValid, s) := rucioIsTokenValid io shortServerName caller.uid s
  if isTokenValid then return (.tokenOk, s)
  else match getServerParams s.servers shortServerName with
    | none => return (.serverNotLoaded, s)
    | some connParams => requestToken io connParams.rucioAuthMode shortServerName caller s

/-- The header that carries a token. -/
def tokenHeader (token : Str) : Str := rucioTokenPrefix ++ token

/-- `get_auth_headers`: a null pointer if the server is not loaded. The outcome of asking for a
token is not looked at. -/
def getAuthHeaders (io : Io) (shortServerName : Str) (caller : Caller) (s : State) :
    Except Fault (Option (List Str) × State) :=
  match getServerParams s.servers shortServerName,
      getServerToken s.servers shortServerName caller.uid with
  | some _, (some _, servers) => do
    let (valid, s) := rucioIsTokenValid io shortServerName caller.uid { s with servers }
    let s ← if valid then pure s else
      Prod.snd <$> rucioGetAuthToken io shortServerName caller s
    return (some [tokenHeader (s.tokenOf shortServerName caller.uid).connToken], s)
  | _, _ => return (none, s)

end FusePosix
