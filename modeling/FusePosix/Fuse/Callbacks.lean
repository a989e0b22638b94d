import FusePosix.Download.Pipeline
import FusePosix.Rest.Listing

/-!
# The file system callbacks

The three operations the mount offers to FUSE. Each of them first passes the gate (`authGate`),
which is open for the root and asks `authenticateUser` about every other path, and then tells from
the depth of the path what it stands for.

`rucioRead` is where the parts of the program meet. It looks for the open file in
`rucioDownloadCache`; if it is not there it looks at `downloadingStatusCache`, and unless the path
has a flag there it hands a job to the download pipeline and sets one. In either case the reader is
told to come back later. All of these are separate accesses to shared tables, so `rucioRead` is
written with one function for each (`isCached`, `isDownloading`, `appendNewDownload`,
`setDownloading`, `setDownloaded`).

`addFile` is the only operation that puts a file into `rucioDownloadCache`.
-/

namespace FusePosix

/-! ### Error numbers -/

def eNOENT : ℤ := 2
def eAGAIN : ℤ := 11
def eACCES : ℤ := 13
def eINPROGRESS : ℤ := 115

/-! ### The mount -/

/-- The global variables of the program. An open file is the content that can be read from it, and
`none` is a null handle. -/
structure Mount where
  rest : State
  downloadingStatusCache : Table Str ℤ := Table.empty
  rucioDownloadCache : Table Str (Option Str) := Table.empty
  pipeline : Pipeline := {}

namespace Mount

/-- `file_cache::is_cached`. -/
def isCached (m : Mount) (key : Str) : Bool := m.rucioDownloadCache.contains key

/-- `file_cache::get_file`. -/
def getFile (m : Mount) (key : Str) : Option Str :=
  (m.rucioDownloadCache.find key).getD none

/-- `file_cache::add_file`. -/
def addFile (m : Mount) (key : Str) (file : Option Str) : Mount :=
  { m with rucioDownloadCache := m.rucioDownloadCache.insert key file }

/-- `is_downloading`. -/
def isDownloading (m : Mount) (path : Str) : Bool := m.downloadingStatusCache.contains path

/-- `set_downloading`. -/
def setDownloading (m : Mount) (path : Str) : Mount :=
  { m with downloadingStatusCache := m.downloadingStatusCache.emplace path 0 }

/-- `set_downloaded`. -/
def setDownloaded (m : Mount) (path : Str) : Mount :=
  { m with downloadingStatusCache := m.downloadingStatusCache.erase path }

/-- `append_new_download`. -/
def appendNewDownload (m : Mount) (info : RucioDownloadInfo) : Mount :=
  { m with pipeline := m.pipeline.append info }

end Mount

/-- Run a function of the REST client on the mount. -/
def onRest {α : Type} (f : State → Except Fault (α × State)) (m : Mount) :
    Except Fault (α × Mount) := do
  let (a, rest) ← f m.rest
  return (a, { m with rest })

theorem onRest_eq_ok {α : Type} {f : State → Except Fault (α × State)} {m m' : Mount} {a : α}
    (h : onRest f m = .ok (a, m')) : ∃ t, f m.rest = .ok (a, t) ∧ m' = { m with rest := t } := by
  obtain ⟨⟨a', t⟩, hf, hret⟩ := bind_eq_ok.1 h
  obtain ⟨rfl, rfl⟩ := Prod.mk.inj (Except.ok.inj hret)
  exact ⟨t, hf, rfl⟩

theorem onRest_of_ok {α : Type} {f : State → Except Fault (α × State)} {m : Mount} {a : α}
    {t : State} (h : f m.rest = .ok (a, t)) : onRest f m = .ok (a, { m with rest := t }) := by
  rw [onRest, h]
  rfl

theorem onRest_of_error {α : Type} {f : State → Except Fault (α × State)} {m : Mount} {e : Fault}
    (h : f m.rest = .error e) : onRest f m = .error e := by
  rw [onRest, h]
  rfl

/-! ### The gate -/

/-- Whether a callback goes on: always for the root, else if the user is authenticated. -/
def authGate (io : Io) (path : Str) (caller : Caller) (s : State) : Except Fault (Bool × State) :=
  if isRootPath path then return (true, s)
  else do
    let (authenticationResult, s) ← authenticateUser io path caller s
    return (authenticationResult == .tokenOk, s)

/-! ### Attributes -/

/-- What `struct stat` says about a file. -/
structure Stat where
  uid : ℕ := 0
  gid : ℕ := 0
  atime : ℤ := 0
  mtime : ℤ := 0
  mode : ℕ := 0
  nlink : ℕ := 0
  size : ℤ := 0
  deriving DecidableEq, Repr

/-- `S_IFDIR | 0755`. -/
def directoryMode : ℕ := 0o040755

/-- `S_IFREG | 0644`. -/
def fileMode : ℕ := 0o100644

/-- The number of DIDs of a listing that are files; a kind that was never written may be any. -/
def countFiles (io : Io) (dids : List RucioDid) : ℕ :=
  dids.countP fun did ↦ did.type.elim (io.garbage = 0) (· = .rucioFile)

/-- `scope_exists`. -/
def scopeExists (io : Io) (serverName scope : Str) (caller : Caller) (s : State) :
    Except Fault (Bool × State) := do
  let (scopes, s) ← rucioListScopes io serverName caller s
  return (scopes.contains scope, s)

/-- What `rucio_getattr` does behind the gate. -/
def getattrBody (io : Io) (path : Str) (caller : Caller) (st : Stat) (s : State) :
    Except Fault ((ℤ × Stat) × State) := do
  let st := { st with uid := io.processUid, gid := io.processGid, atime := io.now, mtime := io.now }
  if isRootPath path then
    return ((0, { st with mode := directoryMode, nlink := 2 + (rucioListServers s).length }), s)
  else if ← isServerMountpoint path then
    let serverShortName := extractServerName path
    if !serverExists s.servers serverShortName then return ((-eNOENT, st), s)
    else
      let (scopes, s) ← rucioListScopes io serverShortName caller s
      return ((0, { st with mode := directoryMode, nlink := 2 + scopes.length }), s)
  else if ← isMainScope path then
    let serverShortName := extractServerName path
    let scope ← extractScope path
    let (found, s) ← scopeExists io serverShortName scope caller s
    if !found then return ((-eNOENT, st), s)
    else
      let (dids, s) ← rucioListDids io scope serverShortName caller s
      return ((0, { st with mode := directoryMode, nlink := 2 + dids.length }), s)
  else
    let (isContainer, s) ← rucioIsContainer io path caller s
    if isContainer then
      let (containerDids, s) ← rucioListContainerDids io (← extractScope path) (← extractName path)
        (extractServerName path) caller s
      let nlink := 2 + containerDids.length - countFiles io containerDids
      return ((0, { st with mode := directoryMode, nlink }), s)
    else
      let (size, s) ← rucioGetSize io path caller s
      return ((0, { st with mode := fileMode, nlink := 1, size }), s)

/-- `rucio_getattr`: the return value and the attributes. -/
def rucioGetattr (io : Io) (path : Str) (caller : Caller) (st : Stat) (m : Mount) :
    Except Fault ((ℤ × Stat) × Mount) := do
  if ← isHidden path then return ((0, st), m)
  else if ← isMacSpecific path then return ((0, st), m)
  else
    let (authenticated, m) ← onRest (authGate io path caller) m
    if !authenticated then return ((-eACCES, st), m)
    else onRest (getattrBody io path caller st) m

/-! ### Directories -/

/-- The entries that stand in every directory. -/
def finalizeFiller (names : List Str) : List Str := names ++ [['.'], ['.', '.']]

/-- What `rucio_readdir` does behind the gate. -/
def readdirBody (io : Io) (path : Str) (caller : Caller) (s : State) :
    Except Fault ((ℤ × List Str) × State) := do
  if ← isHidden path then return ((0, []), s)
  else if isRootPath path then return ((0, finalizeFiller (rucioListServers s)), s)
  else
    let serverShortName := extractServerName path
    if ← isServerMountpoint path then
      let (scopes, s) ← rucioListScopes io serverShortName caller s
      return ((0, finalizeFiller scopes), s)
    else if ← isMainScope path then
      let (dids, s) ← rucioListDids io (← extractScope path) serverShortName caller s
      return ((0, finalizeFiller (dids.map RucioDid.name)), s)
    else
      let (isContainer, s) ← rucioIsContainer io path caller s
      if isContainer then
        let (containerDids, s) ← rucioListContainerDids io (← extractScope path)
          (← extractName path) serverShortName caller s
        return ((0, finalizeFiller (containerDids.map RucioDid.name)), s)
      else return ((0, []), s)

/-- `rucio_readdir`: the return value and the entries handed to the filler. -/
def rucioReaddir (io : Io) (path : Str) (caller : Caller) (m : Mount) :
    Except Fault ((ℤ × List Str) × Mount) := do
  let (authenticated, m) ← onRest (authGate io path caller) m
  if !authenticated then return ((-eACCES, []), m)
  else onRest (readdirBody io path caller) m

/-! ### Reading -/

/-- What a read behind the directory checks is about. -/
structure Wanted where
  path : Str
  did : Str
  cachePath : Str
  deriving DecidableEq, Repr

/-- `not is_server_mountpoint(path) and not is_main_scope(path)`, and
`not rucio_is_container(path)`. -/
def isFilePath (io : Io) (path : Str) (caller : Caller) (s : State) :
    Except Fault (Bool × State) := do
  if ← isServerMountpoint path then return (false, s)
  else if ← isMainScope path then return (false, s)
  else
    let (isContainer, s) ← rucioIsContainer io path caller s
    return (!isContainer, s)

/-- The DID and the place of the local copy. -/
def wantedOf (path : Str) : Except Fault Wanted := do
  let serverName := extractServerName path
  let did ← getDid path
  let cacheRoot := rucioCachePath ++ ['/'] ++ serverName ++ ['/'] ++ (← extractScope path)
  return { path, did, cachePath := cacheRoot ++ ['/'] ++ (← extractName path) }

/-- How the checks in front of a read end. -/
inductive Checked where
  /-- The caller is answered at once. -/
  | answered (result : ℤ)
  /-- The path is a file, so far as the server says. -/
  | file (wanted : Wanted)
  deriving DecidableEq, Repr

/-- `rucio_read` up to the look into the file cache. -/
def readChecks (io : Io) (path : Str) (caller : Caller) (s : State) :
    Except Fault (Checked × State) := do
  let (authenticated, s) ← authGate io path caller s
  if !authenticated then return (.answered (-eACCES), s)
  else
    let (isFile, s) ← isFilePath io path caller s
    if isFile then return (.file (← wantedOf path), s)
    else return (.answered (-1), s)

/-- `rucio_read` behind the look into the file cache, if the file is there: the return value, as an
`int`, and the bytes in the buffer. -/
def readFile (io : Io) (wanted : Wanted) (caller : Caller) (size : ℕ) (offset : ℤ) (m : Mount) :
    Except Fault ((ℤ × Str) × Mount) := do
  let m := m.setDownloaded wanted.path
  let file := m.getFile wanted.cachePath
  let (fileSize, m) ← onRest (rucioGetSize io wanted.path caller) m
  if fileSize < offset then return ((0, []), m)
  else
    -- `fseeko` and `fread` through a null handle are undefined
    let content ← deref file
    let result := min size (fileSize - offset).toNat
    return (((result : ℤ).bmod (2 ^ 32), (content.drop offset.toNat).take size), m)

/-- `rucio_read`. -/
def rucioRead (io : Io) (path : Str) (caller : Caller) (size : ℕ) (offset : ℤ) (m : Mount) :
    Except Fault ((ℤ × Str) × Mount) := do
  let (checked, m) ← onRest (readChecks io path caller) m
  match checked with
  | .answered result => return ((result, []), m)
  | .file wanted =>
    if !m.isCached wanted.cachePath then
      if m.isDownloading path then return ((-eINPROGRESS, []), m)
      else
        let info ← RucioDownloadInfo.ofPath m.rest.servers wanted.did path caller.username
        let m := m.appendNewDownload info
        let m := m.setDownloading path
        return ((-eAGAIN, []), m)
    else readFile io wanted caller size offset m

end FusePosix
