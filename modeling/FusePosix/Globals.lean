import FusePosix.Basic
import FusePosix.Lib.Table

/-!
# Servers and tokens

The process-wide registry of Rucio servers. A server is described by its connection parameters and
by the place of its settings file, and it keeps one token per user.

The registry is read through pointers, which the lookups return as options: a null pointer is
`none`. Looking a token up is not a pure read, since `operator[]` of the token map inserts a fresh
`TokenInfo` for a user it has not met. A fresh token is `rucioInvalidToken`, expired since 1970.

The settings of a server are loaded before the file system is mounted; afterwards only tokens
change.
-/

namespace FusePosix

/-! ### Constants -/

/-- The header that carries a token in an authentication response, `rucio_token_prefix`. -/
def rucioTokenPrefix : Str := "X-Rucio-Auth-Token: ".toList

/-- What an authentication response contains if the user is refused. -/
def rucioTokenExceptionPrefix : Str := "ExceptionMessage:".toList

/-- The text that stands for the absence of a token. -/
def rucioInvalidToken : Str := ">>>---invalid-token---<<<".toList

/-- The header that carries the end of a token's life. -/
def rucioTokenDurationPrefix : Str := "X-Rucio-Auth-Token-Expires: ".toList

/-- The expiry of a token that comes without one. -/
def rucioDefaultExp : Str := "Thu, 1 Jan 1970 01:02:03 UTC".toList

/-! ### Connection parameters -/

/-- How users authenticate to a server. -/
inductive AuthMode where
  | userpass
  | x509
  | oidc
  | none
  deriving DecidableEq, Repr

/-- The authentication mode a settings line names. -/
def getAuthMode (settingsLine : Str) : AuthMode :=
  if "userpass".toList.isPrefixOf settingsLine then .userpass
  else if "x509".toList.isPrefixOf settingsLine then .x509
  else if "oidc".toList.isPrefixOf settingsLine then .oidc
  else .none

/-- How to contact a server. -/
structure ConnectionParameters where
  serverUrl : Str
  accountName : Str
  userName : Str
  password : Str
  rucioAuthMode : AuthMode
  caPath : Str
  deriving DecidableEq, Repr

/-! ### Tokens -/

/-- A broken-down time, `struct tm`. -/
structure Tm where
  sec : ℤ := 0
  min : ℤ := 0
  hour : ℤ := 0
  mday : ℤ := 0
  mon : ℤ := 0
  year : ℤ := 0
  wday : ℤ := 0
  yday : ℤ := 0
  isdst : ℤ := 0
  gmtoff : ℤ := 0
  zone : Str := []
  deriving DecidableEq, Repr

/-- A token and the end of its life. -/
structure TokenInfo where
  connToken : Str := rucioInvalidToken
  connTokenExp : Tm := {}
  connTokenExpEpoch : ℤ := 0
  deriving DecidableEq, Repr

/-- A server of the registry. -/
structure RucioServer where
  rucioConnParams : ConnectionParameters
  /-- The tokens, by user id. -/
  rucioTokenInfos : Table ℕ TokenInfo := Table.empty
  configFilePath : Str
  tempConfigFolder : Str

/-- The token of a user, a fresh one if there is none yet. -/
def RucioServer.token (srv : RucioServer) (uid : ℕ) : TokenInfo :=
  (srv.rucioTokenInfos.find uid).getD {}

/-- The server after its token for the user is overwritten. -/
def RucioServer.setToken (srv : RucioServer) (uid : ℕ) (info : TokenInfo) : RucioServer :=
  { srv with rucioTokenInfos := srv.rucioTokenInfos.insert uid info }

/-! ### The registry -/

/-- The registry, `rucio_server_map`. -/
abbrev ServerMap := Table Str RucioServer

/-- Whether a server is loaded. -/
def serverExists (servers : ServerMap) (key : Str) : Bool :=
  servers.contains key

/-- The connection parameters of a server, or a null pointer. -/
def getServerParams (servers : ServerMap) (serverName : Str) : Option ConnectionParameters :=
  (servers.find serverName).map RucioServer.rucioConnParams

theorem getServerParams_of_find {servers : ServerMap} {server : Str} {srv : RucioServer}
    (h : servers.find server = some srv) :
    getServerParams servers server = some srv.rucioConnParams := by
  rw [getServerParams, h, Option.map_some]

theorem getServerParams_eq_none {servers : ServerMap} {server : Str}
    (h : servers.find server = none) : getServerParams servers server = none := by
  rw [getServerParams, h, Option.map_none]

/-- The settings file of a server, or a null pointer. -/
def getServerConfig (servers : ServerMap) (serverName : Str) : Option Str :=
  (servers.find serverName).map RucioServer.configFilePath

/-- The folder the per-user settings of a server are copied to, or a null pointer. -/
def getTempConfigFolder (servers : ServerMap) (serverName : Str) : Option Str :=
  (servers.find serverName).map RucioServer.tempConfigFolder

/-- Overwrite a user's token, through the pointer a lookup returned. -/
def storeToken (servers : ServerMap) (serverName : Str) (uid : ℕ) (info : TokenInfo) : ServerMap :=
  match servers.find serverName with
  | some srv => servers.insert serverName (srv.setToken uid info)
  | none => servers

/-- Look a user's token up. A first lookup inserts a fresh token. -/
def getServerToken (servers : ServerMap) (serverName : Str) (uid : ℕ) :
    Option TokenInfo × ServerMap :=
  match servers.find serverName with
  | some srv => (some (srv.token uid), storeToken servers serverName uid (srv.token uid))
  | none => (none, servers)

theorem getServerToken_of_find {servers : ServerMap} {server : Str} {srv : RucioServer} {uid : ℕ}
    (h : servers.find server = some srv) :
    getServerToken servers server uid =
      (some (srv.token uid), storeToken servers server uid (srv.token uid)) := by
  rw [getServerToken, h]

/-! ### Settings files -/

/-- The value of a settings line: blanks go, and so does everything up to the first `=`. -/
def getCfgValue (line : Str) : Str × Str :=
  let line := line.filter (· ≠ ' ')
  (line, match line.idxOf? '=' with
    | some pos => line.drop (pos + 1)
    | none => line)

/-- The certificates an X.509 request is made with. -/
structure CurlX509Bundle where
  certFile : Str := []
  caCertFile : Str := []
  keyName : Str := []
  deriving DecidableEq, Repr

/-- Look at one settings line. A line that is read loses its blanks before the next test. -/
def readSSLLine (bundle : CurlX509Bundle) (line : Str) : CurlX509Bundle :=
  let (line, bundle) := if "ca_cert".toList.isPrefixOf line then
    ((getCfgValue line).1, { bundle with caCertFile := (getCfgValue line).2 }) else (line, bundle)
  let (line, bundle) := if "client_cert".toList.isPrefixOf line then
    ((getCfgValue line).1, { bundle with certFile := (getCfgValue line).2 }) else (line, bundle)
  if "client_key".toList.isPrefixOf line then { bundle with keyName := (getCfgValue line).2 }
  else bundle

/-- The certificates named in the settings file of a server; a file that cannot be opened has no
lines. -/
def RucioServer.sslBundle (readFile : Str → Option Str) (srv : RucioServer) : CurlX509Bundle :=
  (Text.getlines '\n' ((readFile srv.configFilePath).getD [])).foldl readSSLLine {}

/-- The certificates of a server, or a null pointer. -/
def getServerSSLBundle (readFile : Str → Option Str) (servers : ServerMap) (serverName : Str) :
    Option CurlX509Bundle :=
  (servers.find serverName).map (·.sslBundle readFile)

theorem getServerSSLBundle_of_find {readFile : Str → Option Str} {servers : ServerMap}
    {server : Str} {srv : RucioServer} (h : servers.find server = some srv) :
    getServerSSLBundle readFile servers server = some (srv.sslBundle readFile) := by
  rw [getServerSSLBundle, h, Option.map_some]

/-- What a login through the OIDC provider needs to know about the server. -/
structure CurlOIDCBundle where
  configFile : Str
  tempConfigFolder : Str
  deriving DecidableEq, Repr

/-- The place of the settings of a server. -/
def getServerOIDCBundle (servers : ServerMap) (serverName : Str) : Option CurlOIDCBundle :=
  (servers.find serverName).map fun srv ↦ ⟨srv.configFilePath, srv.tempConfigFolder⟩

/-! ### What never changes

Token traffic changes tokens only.
-/

theorem find_storeToken (servers : ServerMap) (s t : Str) (uid : ℕ) (info : TokenInfo) :
    (storeToken servers s uid info).find t =
      if t = s then (servers.find s).map (·.setToken uid info) else servers.find t := by
  rw [storeToken]
  rcases h : servers.find s with - | srv
  · show servers.find t = _
    split_ifs with hts
    · rw [hts, h, Option.map_none]
    · rfl
  · show (servers.insert s (srv.setToken uid info)).find t = _
    rw [Table.find_insert, Option.map_some]

/-- What is loaded with a server, that is all but the tokens. -/
def RucioServer.settings (srv : RucioServer) : ConnectionParameters × Str × Str :=
  (srv.rucioConnParams, srv.configFilePath, srv.tempConfigFolder)

/-- The same servers with the same settings. -/
def SameSettings (servers servers' : ServerMap) : Prop :=
  ∀ name, (servers'.find name).map RucioServer.settings =
    (servers.find name).map RucioServer.settings

section SameSettings

variable {servers servers' servers'' : ServerMap}

theorem sameSettings_refl (servers : ServerMap) : SameSettings servers servers := fun _ ↦ rfl

theorem SameSettings.trans (h : SameSettings servers servers')
    (h' : SameSettings servers' servers'') : SameSettings servers servers'' :=
  fun name ↦ (h' name).trans (h name)

/-- **Storing a token keeps the settings.** -/
theorem sameSettings_storeToken (servers : ServerMap) (serverName : Str) (uid : ℕ)
    (info : TokenInfo) : SameSettings servers (storeToken servers serverName uid info) := by
  intro name
  rw [find_storeToken]
  split_ifs with hname
  · rw [hname, Option.map_map]
    rfl
  · rfl

theorem sameSettings_getServerToken (servers : ServerMap) (serverName : Str) (uid : ℕ) :
    SameSettings servers (getServerToken servers serverName uid).2 := by
  rw [getServerToken]
  rcases servers.find serverName with - | srv
  · exact sameSettings_refl servers
  · exact sameSettings_storeToken servers serverName uid (srv.token uid)

theorem sameSettings_of_getServerToken {serverName : Str} {uid : ℕ} {info : Option TokenInfo}
    (h : getServerToken servers serverName uid = (info, servers')) :
    SameSettings servers servers' := by
  have hsame := sameSettings_getServerToken servers serverName uid
  rwa [h] at hsame

theorem SameSettings.serverExists (h : SameSettings servers servers') (name : Str) :
    serverExists servers' name = serverExists servers name := by
  have hsome := congrArg Option.isSome (h name)
  rwa [Option.isSome_map, Option.isSome_map] at hsome

end SameSettings

end FusePosix
