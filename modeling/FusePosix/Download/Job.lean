import FusePosix.Globals
import FusePosix.Utils.Path

/-!
# Download jobs

A download job (`RucioDownloadInfo`) says which DID of which server is wanted by whom, and keeps
score of its attempts. `rucioDownloadWrapper` makes one pass over a job: as long as attempts are
left it copies the settings of the server for the user, runs the download command and looks whether
the file has arrived; afterwards it gives up.

What the operating system answers during one pass is an `Attempt`. The wrapper returns the job and
the command it has passed to `system()`, if it has.

The return codes overwrite each other: a pass that cannot copy the settings records
`settingsNotFound` and goes on to run the command with an empty settings path, and whatever `fopen`
says then replaces that code.

The constructor of a job dereferences the settings pointer of the server, so a job for a server that
is not loaded has no defined behaviour.

**Assumed**: `fclose` returns from a null handle. The C library is free to end the process there,
and the one of GNU does, so what is said of a second attempt at a job is said of libraries that do
not.
-/

namespace FusePosix

/-! ### Constants -/

/-- The root of the local copies, `rucio_cache_path`. -/
def rucioCachePath : Str := "/ruciofs-cache".toList

def fileNotFound : ℤ := 1
def serverNotFound : ℤ := 2
def maxAttempts : ℕ := 4
def tooManyAttempts : ℤ := 8
def settingsNotFound : ℤ := 16

/-! ### Settings copies -/

/-- The contents of the files, by path. -/
abbrev FileSystem := Table Str Str

/-- The last component of a file path. -/
def fileName (path : Str) : Str :=
  match Text.findLast '/' path with
  | some pos => path.drop (pos + 1)
  | none => path

/-- A file name in two parts, cut in front of its last dot. A leading dot does not count. -/
def stemAndExtension (path : Str) : Str × Str :=
  let name := fileName path
  if name = "..".toList then (name, [])
  else match Text.findLast '.' name with
    | none | some 0 => (name, [])
    | some pos => (name.take pos, name.drop pos)

/-- Which file operation of `copyConfig` fails. -/
inductive CopyFault where
  | none
  /-- The copy. If the file has been created, it holds so many characters. -/
  | copyFile (left : Option ℕ)
  | openDestination
  /-- The write of the line, of which so many characters reach the file. -/
  | writeLine (written : ℕ)
  deriving DecidableEq, Repr

/-- Whether `copyConfig` goes through to its end: nobody looks whether the line was written. -/
def CopyFault.returns : CopyFault → Bool
  | .none | .writeLine _ => true
  | .copyFile _ | .openDestination => false

/-- What reaches the file of a line. -/
def CopyFault.reaches (line : Str) : CopyFault → Str
  | .writeLine written => line.take written
  | _ => line

/-- Where the settings of a user go. -/
def configCopyPath (source destinationFolder user : Str) : Str :=
  destinationFolder ++
    ((stemAndExtension source).1 ++ ['_'] ++ user ++ (stemAndExtension source).2)

/-- The line that names the user's token file, on a line of its own. -/
def authTokenLine (destinationFolder user : Str) : Str :=
  let tokenPath := destinationFolder ++ user ++ ".token".toList
  ['\n'] ++ "auth_token_file_path = ".toList ++ tokenPath ++ ['\n']

/-- Copy the settings of a server for a user and name the user's token file in the copy, unless a
copy is there already. -/
def copyConfig (fs : FileSystem) (fault : CopyFault) (source destinationFolder user : Str) :
    Except Fault Str × FileSystem :=
  let destination := configCopyPath source destinationFolder user
  if fs.contains destination then (.ok destination, fs)
  else match fs.find source with
    | none => (.error .runtimeError, fs)
    | some text => match fault with
      | .copyFile .none => (.error .runtimeError, fs)
      | .copyFile (some left) => (.error .runtimeError, fs.insert destination (text.take left))
      | .openDestination => (.error .runtimeError, fs.insert destination text)
      | .none | .writeLine _ => (.ok destination, fs.insert destination
          (text ++ fault.reaches (authTokenLine destinationFolder user)))

/-! ### Jobs -/

/-- A download job, `rucio_download_info`. -/
structure RucioDownloadInfo where
  fserverName : Str
  /-- `none` is the null pointer. -/
  fserverConfig : Option Str
  fdid : Str
  /-- `none` is the null pointer. -/
  tempConfigFolder : Option Str
  /-- The place of the first colon; `none` is `npos`. -/
  fpos : Option ℕ
  username : Str
  freturnCode : ℤ := 0
  fattempt : ℕ := 0
  fdownloaded : Bool := false
  deriving DecidableEq, Repr

namespace RucioDownloadInfo

/-- The job the constructor builds for a DID at a path. -/
def ofPath (servers : ServerMap) (did path username : Str) : Except Fault RucioDownloadInfo := do
  let fserverName := extractServerName path
  let info : RucioDownloadInfo := {
    fserverName
    fserverConfig := getServerConfig servers fserverName
    fdid := did
    tempConfigFolder := getTempConfigFolder servers fserverName
    fpos := did.idxOf? ':'
    username }
  -- the log line of the constructor
  let _ ← deref info.fserverConfig
  return info

/-- The scope in front of the first colon, the whole DID if there is none. -/
def scopename (info : RucioDownloadInfo) : Str :=
  match info.fpos with
  | some pos => info.fdid.take pos
  | none => info.fdid

/-- The name behind the first colon; `npos + 1` is 0, so the whole DID if there is none. -/
def filename (info : RucioDownloadInfo) : Except Fault Str :=
  match info.fpos with
  | some pos => substr info.fdid (pos + 1)
  | none => substr info.fdid 0

/-- The directory the file is downloaded to. -/
def cacheDir (info : RucioDownloadInfo) : Str :=
  rucioCachePath ++ ['/'] ++ info.fserverName ++ ['/'] ++ info.scopename

/-- Where the file will be. -/
def fullCachePath (info : RucioDownloadInfo) : Except Fault Str := do
  return info.cacheDir ++ ['/'] ++ (← info.filename)

/-- The job as it was when it was built: what no pass changes. -/
def order (info : RucioDownloadInfo) : RucioDownloadInfo :=
  { info with freturnCode := 0, fattempt := 0, fdownloaded := false }

/-- What is printed about a finished job. -/
def print (info : RucioDownloadInfo) : Except Fault Str := do
  if info.fdownloaded then
    return "Did ".toList ++ info.fdid ++ " downloaded at ".toList ++ (← info.fullCachePath)
  else
    return "Did ".toList ++ info.fdid ++ " download FAILED!".toList

end RucioDownloadInfo

/-! ### One pass -/

/-- What the operating system answers during one pass over a job. -/
structure Attempt where
  /-- The files the settings copy finds. -/
  files : FileSystem
  copyFault : CopyFault
  systemReturn : ℤ
  /-- Whether the downloaded file can be opened. -/
  opened : Bool

/-- The download client. -/
def rucioExecutable : Str := "/home/jansson/venv/rucio_venv/bin/rucio".toList

/-- The command line as the wrapper puts it together. -/
def downloadCommand (newCfg cachePath did : Str) : Str :=
  rucioExecutable ++ " --config ".toList ++ newCfg ++ " download --no-subdir --dir ".toList ++
    cachePath ++ " ".toList ++ did

/-- The settings path of a pass: the copy, or the empty text if there is none. The second component
is what the wrapper records on the way. -/
def newConfig (a : Attempt) (info : RucioDownloadInfo) :
    Except Fault (Str × RucioDownloadInfo) := do
  let source ← deref info.fserverConfig
  let folder ← deref info.tempConfigFolder
  match (copyConfig a.files a.copyFault source folder info.username).1 with
  | .ok newCfg => return (newCfg, info)
  | .error .runtimeError =>
    return ([], { info with freturnCode := settingsNotFound, fdownloaded := false })
  | .error fault => .error fault

/-- One pass over a job, `rucio_download_wrapper`. If the file cannot be opened the source calls
`fclose` with a null pointer before it goes on, and here that call returns. Where it may end the
process instead, `Pipeline.stepOn` says which passes are the last ones. -/
def rucioDownloadWrapper (servers : ServerMap) (a : Attempt) (info : RucioDownloadInfo) :
    Except Fault (RucioDownloadInfo × Option Str) := do
  if !serverExists servers info.fserverName then
    return ({ info with freturnCode := serverNotFound }, none)
  else if info.fattempt < maxAttempts ∧ info.freturnCode ≠ settingsNotFound then
    let info := { info with fattempt := info.fattempt + 1 }
    let scopename := info.scopename
    let filename ← info.filename
    let cachePath := rucioCachePath ++ ['/'] ++ info.fserverName ++ ['/'] ++ scopename
    let did := scopename ++ [':'] ++ filename
    let (newCfg, info) ← newConfig a info
    let command := downloadCommand newCfg cachePath did
    if a.opened then
      return ({ info with freturnCode := 0, fdownloaded := true }, some command)
    else
      return ({ info with freturnCode := fileNotFound, fdownloaded := false }, some command)
  else
    return ({ info with freturnCode := tooManyAttempts, fdownloaded := false }, none)

/-! ### What a pass does

For a job of a loaded server, as the constructor builds it, a pass returns: it makes one more
attempt while the score allows it, and gives up otherwise.
-/

/-- A job whose server is loaded and whose pointers point to that server's settings. -/
structure RucioDownloadInfo.Loaded (servers : ServerMap) (info : RucioDownloadInfo) : Prop where
  server : serverExists servers info.fserverName = true
  config : info.fserverConfig ≠ none
  folder : info.tempConfigFolder ≠ none
  pos : info.fpos = info.fdid.idxOf? ':'

/-- The job that waits in the queue for the first time. -/
structure RucioDownloadInfo.Fresh (servers : ServerMap) (info : RucioDownloadInfo) : Prop
    extends info.Loaded servers where
  code : info.freturnCode = 0
  attempt : info.fattempt = 0
  notDownloaded : info.fdownloaded = false

/-- Whether a settings copy succeeds: it is there already, or nothing keeps it from being made. -/
def SettingsCopied (a : Attempt) (source destination : Str) : Prop :=
  a.files.contains destination = true ∨
    (a.copyFault.returns = true ∧ a.files.contains source = true)

instance (a : Attempt) (source destination : Str) :
    Decidable (SettingsCopied a source destination) :=
  inferInstanceAs (Decidable (_ ∨ _))

theorem copyConfig_fst (a : Attempt) (source folder user : Str) :
    (copyConfig a.files a.copyFault source folder user).1 =
      if SettingsCopied a source (configCopyPath source folder user) then
        .ok (configCopyPath source folder user)
      else .error .runtimeError := by
  have hfind : a.files.contains source = (a.files.find source).isSome := rfl
  simp only [copyConfig, SettingsCopied, hfind]
  rcases a.files.contains (configCopyPath source folder user) with - | -
  · rcases a.files.find source with - | text
    · simp
    · rcases a.copyFault with - | (- | left) | - | written <;> simp [CopyFault.returns]
  · simp

section Pass

variable {servers : ServerMap} {info : RucioDownloadInfo}

/-- A loaded server gives a fresh job for every path below it. -/
theorem ofPath_eq {path : Str} {srv : RucioServer}
    (h : servers.find (extractServerName path) = some srv) (did username : Str) :
    RucioDownloadInfo.ofPath servers did path username = .ok
      { fserverName := extractServerName path
        fserverConfig := some srv.configFilePath
        fdid := did
        tempConfigFolder := some srv.tempConfigFolder
        fpos := did.idxOf? ':'
        username } := by
  simp [RucioDownloadInfo.ofPath, getServerConfig, getTempConfigFolder, h]

/-- What the constructor returns is a fresh job of a loaded server. -/
theorem fresh_of_ofPath {did path username : Str}
    (h : RucioDownloadInfo.ofPath servers did path username = .ok info) : info.Fresh servers := by
  rcases hsrv : servers.find (extractServerName path) with - | srv
  · simp [RucioDownloadInfo.ofPath, getServerConfig, hsrv, deref] at h
  · rw [ofPath_eq hsrv, Except.ok.injEq] at h
    subst h
    refine ⟨⟨?_, by simp, by simp, rfl⟩, rfl, rfl, rfl⟩
    rw [serverExists, Table.contains, hsrv]
    rfl

/-- The name behind the colon is in range. -/
theorem exists_filename (h : info.fpos = info.fdid.idxOf? ':') :
    ∃ filename, info.filename = .ok filename := by
  rcases Text.notMem_or_exists_line ':' info.fdid with hnone | ⟨scope, name, hscope, hdid⟩
  · rw [List.idxOf?_eq_none_iff.2 hnone] at h
    exact ⟨info.fdid, by simp [RucioDownloadInfo.filename, h, substr]⟩
  · rw [hdid, Text.idxOf?_append_cons hscope] at h
    exact ⟨name, by simp [RucioDownloadInfo.filename, h, hdid, substr]⟩

/-- Cutting a DID at its first colon and joining it again gives the DID. -/
theorem scopename_filename (h : info.fpos = info.fdid.idxOf? ':') (hcolon : ':' ∈ info.fdid) :
    ∃ filename, info.filename = .ok filename ∧
      info.scopename ++ [':'] ++ filename = info.fdid := by
  obtain ⟨scope, name, hdid, hscope⟩ := List.eq_append_cons_of_mem hcolon
  rw [hdid, Text.idxOf?_append_cons hscope] at h
  refine ⟨name, ?_, ?_⟩
  · simp [RucioDownloadInfo.filename, h, hdid, substr]
  · simp [RucioDownloadInfo.scopename, h, hdid]

/-- The job after an attempt, by whether the file could be opened. -/
def RucioDownloadInfo.attempted (info : RucioDownloadInfo) (opened : Bool) : RucioDownloadInfo :=
  { info with
    fattempt := info.fattempt + 1
    freturnCode := if opened then 0 else fileNotFound
    fdownloaded := opened }

/-- The job after giving up. -/
def RucioDownloadInfo.givenUp (info : RucioDownloadInfo) : RucioDownloadInfo :=
  { info with freturnCode := tooManyAttempts, fdownloaded := false }

/-- The settings path of a pass over a loaded job. -/
theorem newConfig_eq {source folder : Str} (hconfig : info.fserverConfig = some source)
    (hfolder : info.tempConfigFolder = some folder) (a : Attempt) :
    newConfig a info =
      if SettingsCopied a source (configCopyPath source folder info.username) then
        .ok (configCopyPath source folder info.username, info)
      else .ok ([], { info with freturnCode := settingsNotFound, fdownloaded := false }) := by
  rw [newConfig, hconfig, hfolder, deref_some, ok_bind, deref_some, ok_bind, copyConfig_fst]
  split_ifs <;> rfl

/-- The settings copy of a pass changes nothing of a job but its score. -/
theorem newConfig_eq_ok {a : Attempt} {newCfg : Str} {next : RucioDownloadInfo}
    (h : newConfig a info = .ok (newCfg, next)) : ∃ freturnCode fdownloaded,
      next = { info with freturnCode, fdownloaded } := by
  obtain ⟨source, -, h⟩ := bind_eq_ok.1 h
  obtain ⟨folder, -, h⟩ := bind_eq_ok.1 h
  split at h
  · obtain ⟨-, rfl⟩ := Prod.mk.inj (Except.ok.inj h)
    exact ⟨_, _, rfl⟩
  · obtain ⟨-, rfl⟩ := Prod.mk.inj (Except.ok.inj h)
    exact ⟨_, _, rfl⟩
  · cases h

/-- How a pass goes, for whatever job: there is no server, or it makes an attempt with some settings
path, or it gives up. -/
inductive PassEnds (servers : ServerMap) (a : Attempt) (info : RucioDownloadInfo) :
    RucioDownloadInfo → Option Str → Prop
  | unloaded (hserver : serverExists servers info.fserverName = false) :
      PassEnds servers a info { info with freturnCode := serverNotFound } none
  | attempted {newCfg filename : Str} {next : RucioDownloadInfo}
      (hserver : serverExists servers info.fserverName = true)
      (hleft : info.fattempt < maxAttempts ∧ info.freturnCode ≠ settingsNotFound)
      (hcfg : newConfig a { info with fattempt := info.fattempt + 1 } = .ok (newCfg, next))
      (hfilename : info.filename = .ok filename) :
      PassEnds servers a info (info.attempted a.opened)
        (some (downloadCommand newCfg info.cacheDir (info.scopename ++ [':'] ++ filename)))
  | givenUp (hserver : serverExists servers info.fserverName = true)
      (hleft : ¬ (info.fattempt < maxAttempts ∧ info.freturnCode ≠ settingsNotFound)) :
      PassEnds servers a info info.givenUp none

/-- **One pass over a job without a server** runs nothing. -/
theorem rucioDownloadWrapper_unloaded (hserver : serverExists servers info.fserverName = false)
    (a : Attempt) : rucioDownloadWrapper servers a info =
      .ok ({ info with freturnCode := serverNotFound }, none) := by
  rw [rucioDownloadWrapper, hserver]
  rfl

/-- **What a pass does**, whatever the job is. -/
theorem passEnds_of_eq_ok {a : Attempt} {output : RucioDownloadInfo} {command : Option Str}
    (h : rucioDownloadWrapper servers a info = .ok (output, command)) :
    PassEnds servers a info output command := by
  rcases hserver : serverExists servers info.fserverName with - | -
  · rw [rucioDownloadWrapper_unloaded hserver] at h
    obtain ⟨rfl, rfl⟩ := Prod.mk.inj (Except.ok.inj h)
    exact .unloaded hserver
  rw [rucioDownloadWrapper, hserver, if_neg (by decide)] at h
  by_cases hleft : info.fattempt < maxAttempts ∧ info.freturnCode ≠ settingsNotFound
  · rw [if_pos hleft] at h
    obtain ⟨filename, hfilename, h⟩ := bind_eq_ok.1 h
    obtain ⟨⟨newCfg, next⟩, hcfg, h⟩ := bind_eq_ok.1 h
    obtain ⟨freturnCode, fdownloaded, rfl⟩ := newConfig_eq_ok hcfg
    have hend : (output, command) = (info.attempted a.opened,
        some (downloadCommand newCfg info.cacheDir (info.scopename ++ [':'] ++ filename))) := by
      rcases hopened : a.opened with - | -
      · rw [hopened] at h
        exact (Except.ok.inj h).symm
      · rw [hopened] at h
        exact (Except.ok.inj h).symm
    obtain ⟨rfl, rfl⟩ := Prod.mk.inj hend
    exact .attempted hserver hleft hcfg hfilename
  · rw [if_neg hleft] at h
    obtain ⟨rfl, rfl⟩ := Prod.mk.inj (Except.ok.inj h)
    exact .givenUp hserver hleft

/-- **One pass over a loaded job with attempts left**: whatever becomes of the settings copy, the
command is run and `fopen` decides. -/
theorem rucioDownloadWrapper_attempt (h : info.Loaded servers) (hleft : info.fattempt < maxAttempts)
    (hcode : info.freturnCode ≠ settingsNotFound) (a : Attempt) :
    ∃ source folder filename,
      info.fserverConfig = some source ∧ info.tempConfigFolder = some folder ∧
      info.filename = .ok filename ∧
      rucioDownloadWrapper servers a info = .ok (info.attempted a.opened,
        some (downloadCommand
          (if SettingsCopied a source (configCopyPath source folder info.username) then
            configCopyPath source folder info.username else [])
          info.cacheDir (info.scopename ++ [':'] ++ filename))) := by
  obtain ⟨source, hsource⟩ := Option.ne_none_iff_exists'.1 h.config
  obtain ⟨folder, hfolder⟩ := Option.ne_none_iff_exists'.1 h.folder
  obtain ⟨filename, hfilename⟩ := exists_filename h.pos
  refine ⟨source, folder, filename, hsource, hfolder, hfilename, ?_⟩
  set next : RucioDownloadInfo := { info with fattempt := info.fattempt + 1 } with hnext
  have hname : next.filename = .ok filename := hfilename
  have hsource' : next.fserverConfig = some source := hsource
  have hcfg := newConfig_eq hsource' hfolder a
  rw [rucioDownloadWrapper, h.server, if_neg (by decide), if_pos ⟨hleft, hcode⟩]
  simp only [← hnext, hname, hcfg, ok_bind]
  split_ifs with hcopied hopened hopened <;> simp [RucioDownloadInfo.attempted,
    RucioDownloadInfo.cacheDir, RucioDownloadInfo.scopename, hopened, hnext]

/-- **One pass over a loaded job without attempts left** runs nothing. -/
theorem rucioDownloadWrapper_giveUp (h : info.Loaded servers)
    (hleft : ¬ (info.fattempt < maxAttempts ∧ info.freturnCode ≠ settingsNotFound)) (a : Attempt) :
    rucioDownloadWrapper servers a info = .ok (info.givenUp, none) := by
  rw [rucioDownloadWrapper, h.server, if_neg (by decide), if_neg hleft]
  rfl

end Pass

/-! ### A sample job -/

/-- A server with its settings in `/e/s.cfg` and its copies below `/t/`. -/
def sampleServer : RucioServer where
  rucioConnParams := ⟨['h'], [], [], [], .userpass, []⟩
  configFilePath := ['/', 'e', '/', 's', '.', 'c', 'f', 'g']
  tempConfigFolder := ['/', 't', '/']

/-- A registry with that server only. -/
def sampleServers : ServerMap := Table.empty.insert ['s'] sampleServer

/-- A pass that finds the settings and gets the file. -/
def sampleAttempt : Attempt where
  files := Table.empty.insert ['/', 'e', '/', 's', '.', 'c', 'f', 'g'] []
  copyFault := .none
  systemReturn := 0
  opened := true

/-- The job for `/s/u/` and a name. -/
def sampleJob (name : Str) : RucioDownloadInfo where
  fserverName := ['s']
  fserverConfig := some sampleServer.configFilePath
  fdid := 'u' :: ':' :: name
  tempConfigFolder := some sampleServer.tempConfigFolder
  fpos := some 1
  username := ['j']

theorem fresh_sampleJob (name : Str) : (sampleJob name).Fresh sampleServers :=
  @fresh_of_ofPath sampleServers (sampleJob name) ('u' :: ':' :: name) ['/', 's'] ['j'] rfl

end FusePosix
