import FusePosix.Globals
import FusePosix.Token
import FusePosix.Utils.Did
import Mathlib.Data.List.TakeWhile

/-!
# The state of the REST client and its environment

What the functions that talk to Rucio servers read and write: the server registry with its tokens,
the caches they share, the remainder of the record parser, and the logins that wait for a user. All
of it is global in the program, so every function takes a `State` and returns one.

`Io` is what the world answers while a function runs: one reading of the clock for the whole call,
the network, the C library and the file system. The network may answer every request differently,
since it sees everything that has happened before (`State.log`).

The log is a record for the reader and for the network, latest event first. No function of the
program looks at it. Besides requests it notes which cache entries were stored and used, together
with the entity they were stored or used *for*: the list of names (server, scope, name) that the
caller put together into the key.

What is sent is a request for a transfer. libcurl is told to follow redirects
(`CURLOPT_FOLLOWLOCATION`), so a transfer may take more requests than that one: the same headers go
to every address that an answer names (`Request.transfer`). The program only gets to see how the
transfer ends. Where something is said about the requests of a log, the first one of each transfer
is meant, unless it says otherwise.

A function reads and writes the state in one go. So nothing is claimed here about functions that
overlap, and nothing about the memory: `thread_safe_unordered_map` has a mutex, but its
`std::scoped_lock(lock);` declares a variable of that name and locks nothing. A login thread gets
the arguments that it was started with, although they lie in the frame of a function that does not
wait for it (`getOIDCAsync`, `oidcLoginEnds`).

Records with a type the parser does not know leave fields of a `RucioDid` unassigned, and the code
stores these in its caches all the same. Such an entry is `none`; reading it gives whatever the
memory holds (`Io.garbage`).
-/

namespace FusePosix

/-! ### Requests and answers -/

/-- A text cut at its first terminator, as `data()` shows it to a C function. -/
def cStr (s : Str) : Str := s.takeWhile (· ≠ '\x00')

/-- A text without a terminator is handed over whole. -/
theorem cStr_of_nul_notMem {text : Str} (h : '\x00' ∉ text) : cStr text = text :=
  List.takeWhile_eq_self_iff.2 fun x hx ↦ by simpa using fun heq : x = '\x00' ↦ h (heq ▸ hx)

/-- What is handed to libcurl for a GET request. -/
structure Request where
  url : Str
  caPath : Str := []
  headers : List Str := []
  includeHeaders : Bool := false
  timeout : ℕ := 0
  /-- The client certificate of an X.509 request. -/
  bundle : Option CurlX509Bundle := none
  deriving DecidableEq, Repr

/-- The return code of libcurl, 0 for success, and the chunks it delivered. -/
structure CurlRet where
  res : ℕ
  payload : List Str
  deriving DecidableEq, Repr

/-- Whether the return code is `CURLE_OK`. -/
def CurlRet.ok (ret : CurlRet) : Bool := ret.res == 0

/-! ### Events -/

/-- The caches of the REST client. -/
inductive CacheName where
  | scopes
  | dids
  | containerDids
  | isContainer
  | isFile
  | fileSize
  deriving DecidableEq, Repr

/-- The names an entry is about: server, scope and name, as far as the cache needs them. -/
abbrev Entity := List Str

/-- What has happened. -/
inductive Event where
  /-- A transfer was begun with a request. -/
  | sent (request : Request)
  /-- An entry was stored under a key. -/
  | stored (cache : CacheName) (entity : Entity) (key : Str)
  /-- A call was answered from the entry of a key. -/
  | used (cache : CacheName) (entity : Entity) (key : Str)
  deriving DecidableEq, Repr

/-! ### The environment -/

/-- How an OIDC login in a pseudo-terminal goes. -/
structure OidcRun where
  ptyOpened : Bool
  forked : Bool
  exitedZero : Bool
  /-- The content of the user's token file, if it can be opened. -/
  tokenFile : Option Str

/-- What the world answers during one call. -/
structure Io where
  now : ℤ
  /-- How the transfer that begins with a request ends. -/
  net : List Event → Request → CurlRet
  /-- The addresses that the answers in between send libcurl to, one after the other. -/
  redirects : List Event → Request → List Str := fun _ _ ↦ []
  /-- `strptime` with the format of the expiry header, on the broken-down time it writes to. -/
  strptime : Str → Tm → Tm
  /-- `mktime`, with the normalised time it leaves behind. -/
  mktime : Tm → ℤ × Tm
  /-- `localtime`, a null pointer for a year that is not representable. -/
  localtime : ℤ → Option Tm
  /-- `gmtime`, the same in UTC. -/
  gmtime : ℤ → Option Tm
  /-- The global variable of the C library. -/
  timezone : ℤ
  /-- The content of a file, if it can be opened. -/
  readFile : Str → Option Str
  /-- The JSON library: parse an object and read its integer field `exp`. -/
  jsonExp : Str → Except Fault ℤ
  /-- Whether a thread can be started. -/
  threadStarts : Bool
  oidc : OidcRun
  /-- The user and the group the file system runs as. -/
  processUid : ℕ
  processGid : ℕ
  /-- What is read from memory that was never written. -/
  garbage : ℤ

/-- The user and the process a callback is called for. -/
structure Caller where
  uid : ℕ
  pid : ℤ
  username : Str
  deriving DecidableEq, Repr

/-- A login that waits for its user. -/
structure Login where
  server : Str
  caller : Caller
  deriving DecidableEq, Repr

/-- The global variables of the REST client. -/
structure State where
  servers : ServerMap
  serverNames : List Str
  scopesCache : Table Str (ℤ × List Str) := Table.empty
  didsCache : Table Str (ℤ × List RucioDid) := Table.empty
  containerDidsCache : Table Str (ℤ × List RucioDid) := Table.empty
  isContainerCache : Table Str (Option Bool) := Table.empty
  isFileCache : Table Str Bool := Table.empty
  fileSizeCache : Table Str (Option ℤ) := Table.empty
  didStringRemainder : Str := []
  /-- The login threads that have been started and have not ended. -/
  logins : List Login := []
  log : List Event := []

namespace State

/-- Note an event. -/
def note (s : State) (e : Event) : State := { s with log := e :: s.log }

end State

/-! ### Sending requests -/

/-- A request as libcurl reads it. -/
def Request.asSent (request : Request) : Request :=
  { request with url := cStr request.url, headers := request.headers.map cStr }

/-- All requests of the transfer that begins with a request: libcurl follows redirects, and sends
the same headers along. -/
def Request.transfer (request : Request) (io : Io) (log : List Event) : List Request :=
  request :: (io.redirects log request).map fun url ↦ { request with url }

/-- One transfer through libcurl, `GET` and `GET_x509`. Noted is the request it begins with. -/
def curlGET (io : Io) (request : Request) (s : State) : CurlRet × State :=
  let request := { request with
    url := cStr request.url
    headers := request.headers.map cStr }
  (io.net s.log request, s.note (.sent request))

theorem curlGET_eq (io : Io) (request : Request) (s : State) :
    curlGET io request s = (io.net s.log request.asSent, s.note (.sent request.asSent)) :=
  rfl

/-- How often a request is made at most, `max_retry`. -/
def maxRetry : ℕ := 1

/-- The retry loop of `safeGET` with the number of turns that are left. -/
def safeGETLoop (io : Io) (request : Request) : ℕ → CurlRet × State → CurlRet × State
  | 0, done => done
  | turns + 1, done =>
    if done.1.ok then done
    else
      let request := { request with timeout := request.timeout * 2 }
      safeGETLoop io request turns (curlGET io request done.2)

/-- Send a request, and send it again if that fails. -/
def safeGET (io : Io) (request : Request) (s : State) : CurlRet × State :=
  safeGETLoop io request (maxRetry - 1) (curlGET io request s)

/-- With a single try there is no second one. -/
theorem safeGET_eq (io : Io) (request : Request) (s : State) :
    safeGET io request s = curlGET io request s :=
  rfl

/-- The timeout of a request that does not set one. -/
def defaultTimeout : ℕ := 20

/-- A world that knows its time zone to be UTC and dates in January 1970 only, where every request
is answered by the text `x`. -/
def sampleIo : Io where
  now := 1000000
  net := fun _ _ ↦ ⟨0, [['x']]⟩
  strptime := fun _ tm ↦ { tm with
    sec := 3, min := 2, hour := 1, mday := 1, mon := 0, year := 70, wday := 4, yday := 0 }
  mktime := fun tm ↦ (tm.sec + 60 * tm.min + 3600 * tm.hour + 86400 * tm.yday, tm)
  localtime := fun t ↦ some { sec := t, mday := 1, year := 70, wday := 4 }
  gmtime := fun t ↦ some { sec := t, mday := 1, year := 70, wday := 4 }
  timezone := 0
  readFile := fun _ ↦ none
  jsonExp := fun _ ↦ .error .json
  threadStarts := true
  oidc := ⟨true, true, false, none⟩
  processUid := 0
  processGid := 0
  garbage := 0

/-- A user. -/
def sampleCaller : Caller := ⟨7, 1, ['j']⟩

/-! ### Tokens of the state -/

/-- The token of a user as it is stored, without looking it up. -/
def State.tokenOf (s : State) (server : Str) (uid : ℕ) : TokenInfo :=
  ((s.servers.find server).map (·.token uid)).getD {}

end FusePosix
