import FusePosix.Fuse.Outage
import Mathlib.Data.List.Nodup

/-!
# Loading the servers

Before the file system is mounted, the settings of the servers are read: one file with the ending
`.cfg` for each server, in one directory. A server whose certificate authority file cannot be opened
is skipped. Any other server is entered into the registry, contacted, and listed if it answers and
grants a token.

There are two registries, and they are filled at different points: `rucio_server_map` before a
server is validated, `rucio_server_names` after it has been. A server that is dropped stays in the
first one. And since the name of a server is the name of its file up to the first `.cfg`, two files
may describe one server, which is then entered once and listed twice. `registries_agree_iff` says
that these are the only ways in which the registries come to differ.

The five settings of the OIDC provider are read into variables that nobody looks at, and are left
out. So is the counter that is only logged.
-/

namespace FusePosix

open Transition

/-! ### Settings files -/

/-- What a settings file says: a server, and the place of the certificate authority file. -/
structure Settings where
  server : RucioServer
  caFilePath : Str := []

/-- The server before any settings are read, `rucio_server()`. -/
def RucioServer.blank (configFilePath : Str) : RucioServer where
  rucioConnParams := ⟨[], [], [], [], .userpass, []⟩
  configFilePath := configFilePath
  tempConfigFolder := []

/-- Change the connection parameters of the server. -/
def Settings.setParams (settings : Settings) (f : ConnectionParameters → ConnectionParameters) :
    Settings :=
  { settings with
    server := { settings.server with rucioConnParams := f settings.server.rucioConnParams } }

/-- The settings a line may carry, in the order they are looked for. -/
def settingsFields : List (Str × (Str → Settings → Settings)) := [
  ("rucio_host".toList, fun value ↦ (·.setParams ({ · with serverUrl := value }))),
  ("username".toList, fun value ↦ (·.setParams ({ · with userName := value }))),
  ("password".toList, fun value ↦ (·.setParams ({ · with password := value }))),
  ("account".toList, fun value ↦ (·.setParams ({ · with accountName := value }))),
  ("auth_type".toList, fun value ↦ (·.setParams ({ · with rucioAuthMode := getAuthMode value }))),
  ("ca_cert".toList, fun value ↦ ({ · with caFilePath := value })),
  ("temp_config_folder".toList, fun value settings ↦
    { settings with server := { settings.server with tempConfigFolder := value } })]

/-- Look for one setting in a line. A line that is read loses its blanks. -/
def readSettingsField (read : Str × Settings) (field : Str × (Str → Settings → Settings)) :
    Str × Settings :=
  if field.1.isPrefixOf read.1 then
    ((getCfgValue read.1).1, field.2 (getCfgValue read.1).2 read.2)
  else read

/-- Look for every setting in a line. -/
def readSettingsLine (settings : Settings) (line : Str) : Settings :=
  (settingsFields.foldl readSettingsField (line, settings)).2

/-- Read a settings file; a file that cannot be opened has no lines. -/
def readSettingsFile (io : Io) (configFilePath : Str) : Settings :=
  (Text.getlines '\n' ((io.readFile configFilePath).getD [])).foldl readSettingsLine
    { server := .blank configFilePath }

/-- Whether a file is a settings file. -/
def isSettingsFile (fileName : Str) : Bool :=
  4 < fileName.length && fileName.drop (fileName.length - 4) == ".cfg".toList

/-- The name of the server of a settings file. -/
def settingsServerName (fileName : Str) : Str :=
  match Text.find ".cfg".toList fileName with
  | some pos => fileName.take pos
  | none => fileName

/-! ### Validation -/

/-- The request of `rucio_ping`. -/
def pingRequest (connParams : ConnectionParameters) : Request where
  url := connParams.serverUrl ++ "/ping".toList
  caPath := connParams.caPath
  timeout := defaultTimeout

/-- `rucio_ping`. -/
def rucioPing (io : Io) (shortServerName : Str) (s : State) : Except Fault (Bool × State) := do
  let connParams ← deref (getServerParams s.servers shortServerName)
  let curlRes := safeGET io (pingRequest connParams) s
  return (curlRes.1.ok, curlRes.2)

/-- `rucio_get_auth_token_root`: an OIDC login is waited for. -/
def rucioGetAuthTokenRoot (io : Io) (shortServerName : Str) (caller : Caller) (s : State) :
    Except Fault (AuthResult × State) := do
  let connParams ← deref (getServerParams s.servers shortServerName)
  match connParams.rucioAuthMode with
  | .userpass => rucioGetAuthTokenUserpass io shortServerName caller s
  | .x509 => rucioGetAuthTokenX509 io shortServerName caller s
  | .oidc => rucioGetAuthTokenOidc io shortServerName caller false s
  | .none => return (.tokenError, s)

/-- `rucio_validate_server`. -/
def rucioValidateServer (io : Io) (shortServerName : Str) (caller : Caller) (s : State) :
    Except Fault (Bool × State) := do
  let (reached, s) ← rucioPing io shortServerName s
  if !reached then return (false, s)
  else
    let (result, s) ← rucioGetAuthTokenRoot io shortServerName caller s
    return (result == .tokenOk, s)

/-! ### The directory -/

/-- The names in a directory, in the order they are read. -/
structure Directory where
  names : List Str
  nodup : names.Nodup

/-- The settings in a file of a directory. -/
def settingsOf (io : Io) (root fileName : Str) : Settings :=
  readSettingsFile io (root ++ ['/'] ++ fileName)

/-- The server of a file of a directory. -/
def serverOf (io : Io) (root fileName : Str) : RucioServer :=
  ((settingsOf io root fileName).setParams
    ({ · with caPath := (settingsOf io root fileName).caFilePath })).server

/-- Whether the certificate authority file of a server can be opened. -/
def caFileOpens (io : Io) (root fileName : Str) : Bool :=
  (io.readFile (cStr (settingsOf io root fileName).caFilePath)).isSome

/-- `rucio_server_map.emplace`. -/
def State.emplaceServer (s : State) (name : Str) (srv : RucioServer) : State :=
  { s with servers := s.servers.emplace name srv }

/-- One turn of the loop over the directory. -/
def parseSettingsEntry (io : Io) (caller : Caller) (root fileName : Str) (s : State) :
    Except Fault State :=
  if !isSettingsFile fileName then return s
  else if !caFileOpens io root fileName then return s
  else do
    let srvName := settingsServerName fileName
    let s := s.emplaceServer srvName (serverOf io root fileName)
    let (validated, s) ← rucioValidateServer io srvName caller s
    if !validated then return s
    else return { s with serverNames := s.serverNames ++ [srvName] }

/-- `parse_settings_cfg`. The world may change between two files; a directory that cannot be opened
has no files. -/
def parseSettingsCfg (world : Str → Io) (caller : Caller) (getenv : Option Str)
    (opendir : Str → Option Directory) (ruciofsSettingsRoot : Str) (s : State) :
    Except Fault State :=
  let root := getenv.getD ruciofsSettingsRoot
  match opendir root with
  | none => return s
  | some dir =>
    dir.names.foldlM (fun s fileName ↦ parseSettingsEntry (world fileName) caller root fileName s) s

/-! ### What becomes of a server -/

/-- The world grants the user a token of a server that is asked now. -/
def Grants (io : Io) (srv : RucioServer) (s : State) : Prop :=
  match srv.rucioConnParams.rucioAuthMode with
  | .userpass | .x509 =>
    (authResponse io srv s).ok = true ∧ ¬Refused (authResponse io srv s).payload
  | .oidc => getOIDC io.oidc ≠ []
  | .none => False

/-- The world lets a server pass: it answers the ping, and then grants the user a token. -/
def Welcomes (io : Io) (srv : RucioServer) (s : State) : Prop :=
  (curlGET io (pingRequest srv.rucioConnParams) s).1.ok = true ∧
    Grants io srv (curlGET io (pingRequest srv.rucioConnParams) s).2

section Validation

variable {io : Io} {server : Str} {srv : RucioServer} {uid : ℕ} {caller : Caller} {s t : State}

/-- The servers and the list of their names are not touched, but for tokens. -/
def SameNames (s t : State) : Prop :=
  SameSettings s.servers t.servers ∧ t.serverNames = s.serverNames

theorem sameNames_receiveToken (ret : CurlRet) :
    SameNames s (receiveToken io server uid ret s).2 := by
  refine ⟨(quiet_receiveToken io server uid ret s).settings, ?_⟩
  rw [receiveToken]
  split_ifs
  · rfl
  · split
    · rfl
    · split <;> rfl

/-- Asking for a token, in whichever way, touches neither the servers nor their names. -/
theorem sameNames_requestToken {mode : AuthMode} {result : AuthResult} (hmode : mode ≠ .oidc)
    (h : requestToken io mode server caller s = .ok (result, t)) : SameNames s t := by
  refine ⟨(quiet_requestToken h).settings, ?_⟩
  rcases mode with - | - | - | -
  · simp only [requestToken, rucioGetAuthTokenUserpass] at h
    split at h
    · obtain ⟨-, rfl⟩ := Prod.mk.inj (Except.ok.inj h)
      rfl
    · obtain rfl : _ = t := congrArg Prod.snd (Except.ok.inj h)
      exact (sameNames_receiveToken _).2
  · simp only [requestToken, rucioGetAuthTokenX509] at h
    split at h
    · obtain ⟨-, rfl⟩ := Prod.mk.inj (Except.ok.inj h)
      rfl
    · obtain ⟨bundle, -, h⟩ := bind_eq_ok.1 h
      obtain rfl : _ = t := congrArg Prod.snd (Except.ok.inj h)
      exact (sameNames_receiveToken _).2
  · exact absurd rfl hmode
  · obtain ⟨-, rfl⟩ := Prod.mk.inj (Except.ok.inj h)
    rfl

/-- A login that is waited for succeeds exactly if it brings a token. -/
theorem rucioGetAuthTokenOidc_sync {result : AuthResult} (hfind : s.servers.find server = some srv)
    (h : rucioGetAuthTokenOidc io server caller false s = .ok (result, t)) :
    (result = .tokenOk ↔ getOIDC io.oidc ≠ []) ∧ SameNames s t := by
  have hparams := getServerParams_of_find hfind
  rw [rucioGetAuthTokenOidc, hparams] at h
  obtain ⟨bundle, -, h⟩ := bind_eq_ok.1 h
  simp only [Bool.false_eq_true, if_false, getServerToken_of_find hfind] at h
  split_ifs at h with hempty
  · obtain ⟨rfl, rfl⟩ := Prod.mk.inj (Except.ok.inj h)
    exact ⟨iff_of_false (by decide) (not_not_intro (List.length_eq_zero_iff.1 hempty)),
      sameSettings_refl _, rfl⟩
  · obtain ⟨u, hstore, hret⟩ := bind_eq_ok.1 h
    obtain ⟨rfl, rfl⟩ := Prod.mk.inj (Except.ok.inj hret)
    obtain ⟨info, hstored⟩ := exists_of_storeOidcToken hstore
    refine ⟨iff_of_true rfl fun hnil ↦ hempty (by rw [hnil]; rfl), ?_, ?_⟩
    · exact (sameSettings_storeToken _ _ _ _).trans (quiet_storeOidcToken hstore).settings
    · rw [hstored]

/-- A loaded server grants a token exactly if the world does. -/
theorem rucioGetAuthTokenRoot_eq_ok {result : AuthResult} (hfind : s.servers.find server = some srv)
    (h : rucioGetAuthTokenRoot io server caller s = .ok (result, t)) :
    (result = .tokenOk ↔ Grants io srv s) ∧ SameNames s t := by
  have hparams := getServerParams_of_find hfind
  rw [rucioGetAuthTokenRoot, hparams, deref_some, ok_bind] at h
  obtain ⟨answer, u, hrequest, hiff⟩ := @requestToken_eq_ok io caller _ _ _ hfind
  rw [Grants]
  rcases hmode : srv.rucioConnParams.rucioAuthMode with - | - | - | -
  · rw [hmode] at h hrequest hiff
    obtain ⟨rfl, rfl⟩ := Prod.mk.inj (Except.ok.inj (h.symm.trans hrequest))
    exact ⟨by simpa using hiff, sameNames_requestToken AuthMode.noConfusion hrequest⟩
  · rw [hmode] at h hrequest hiff
    obtain ⟨rfl, rfl⟩ := Prod.mk.inj (Except.ok.inj (h.symm.trans hrequest))
    exact ⟨by simpa using hiff, sameNames_requestToken AuthMode.noConfusion hrequest⟩
  · rw [hmode] at h
    exact rucioGetAuthTokenOidc_sync hfind h
  · rw [hmode] at h
    obtain ⟨rfl, rfl⟩ := Prod.mk.inj (Except.ok.inj h)
    exact ⟨iff_of_false AuthResult.noConfusion id, sameSettings_refl _, rfl⟩

/-- **A loaded server passes validation exactly if the world lets it**, and the registries stay as
they are meanwhile. -/
theorem rucioValidateServer_eq_ok {validated : Bool} (hfind : s.servers.find server = some srv)
    (h : rucioValidateServer io server caller s = .ok (validated, t)) :
    (validated = true ↔ Welcomes io srv s) ∧ SameNames s t := by
  have hparams := getServerParams_of_find hfind
  obtain ⟨⟨reached, s₁⟩, hping, h⟩ := bind_eq_ok.1 h
  rw [rucioPing, hparams, deref_some, ok_bind, safeGET_eq] at hping
  obtain ⟨rfl, rfl⟩ := Prod.mk.inj (Except.ok.inj hping)
  simp only at h
  split_ifs at h with hreached
  · obtain ⟨rfl, rfl⟩ := Prod.mk.inj (Except.ok.inj h)
    refine ⟨iff_of_false Bool.false_ne_true fun hwelcome ↦ ?_, sameSettings_refl _, rfl⟩
    rw [hwelcome.1] at hreached
    exact Bool.false_ne_true hreached
  · obtain ⟨⟨result, s₂⟩, hroot, hret⟩ := bind_eq_ok.1 h
    obtain ⟨rfl, rfl⟩ := Prod.mk.inj (Except.ok.inj hret)
    obtain ⟨hiff, hsame⟩ := rucioGetAuthTokenRoot_eq_ok
      (show (curlGET io (pingRequest srv.rucioConnParams) s).2.servers.find server = some srv from
        hfind) hroot
    have hok : (curlGET io (pingRequest srv.rucioConnParams) s).1.ok = true := by
      simpa using hreached
    rw [beq_iff_eq, Welcomes, and_iff_right hok]
    exact ⟨hiff, hsame⟩

end Validation

/-! ### One file after the other -/

/-- Whether a file describes a server that is entered into the registry. -/
def loads (io : Io) (root fileName : Str) : Bool :=
  isSettingsFile fileName && caFileOpens io root fileName

/-- How a turn of the loop ends. -/
inductive EntryEnds (io : Io) (caller : Caller) (root fileName : Str) (s : State) : State → Prop
  | skipped (hloads : loads io root fileName = false) : EntryEnds io caller root fileName s s
  | dropped {t : State} (hloads : loads io root fileName = true)
      (hvalidate : rucioValidateServer io (settingsServerName fileName) caller
        (s.emplaceServer (settingsServerName fileName) (serverOf io root fileName)) =
          .ok (false, t)) :
      EntryEnds io caller root fileName s t
  | listed {t : State} (hloads : loads io root fileName = true)
      (hvalidate : rucioValidateServer io (settingsServerName fileName) caller
        (s.emplaceServer (settingsServerName fileName) (serverOf io root fileName)) =
          .ok (true, t)) :
      EntryEnds io caller root fileName s
        { t with serverNames := t.serverNames ++ [settingsServerName fileName] }

/-- The loop over the directory, as steps that may fail. -/
def State.load (world : Str → Io) (caller : Caller) (root : Str) (s : State) (fileName : Str) :
    Option State :=
  (parseSettingsEntry (world fileName) caller root fileName s).toOption

/-- The names of the servers that some files describe. -/
def loadedNames (world : Str → Io) (root : Str) (files : List Str) : List Str :=
  (files.filter fun fileName ↦ loads (world fileName) root fileName).map settingsServerName

/-- A server has passed validation while the files were read. -/
def Validated (world : Str → Io) (caller : Caller) (root : Str) (start : State) (files : List Str)
    (name : Str) : Prop :=
  ∃ before fileName after s t, files = before ++ fileName :: after ∧
    settingsServerName fileName = name ∧
    exec (State.load world caller root) start before = some s ∧
    rucioValidateServer (world fileName) name caller
      (s.emplaceServer name (serverOf (world fileName) root fileName)) = .ok (true, t)

/-- No two settings files of a directory describe servers of one name. -/
def DistinctServers (files : List Str) : Prop :=
  ∀ file ∈ files, ∀ file' ∈ files, isSettingsFile file = true → isSettingsFile file' = true →
    settingsServerName file = settingsServerName file' → file = file'

/-- **The two registries agree**: the listed servers are the servers, each of them once, each of
them validated, and each of them from one file. -/
structure RegistriesAgree (world : Str → Io) (caller : Caller) (root : Str) (start : State)
    (files : List Str) (s : State) : Prop where
  nodup : (rucioListServers s).Nodup
  mem_iff : ∀ name, name ∈ rucioListServers s ↔ serverExists s.servers name = true
  validated : ∀ name ∈ rucioListServers s, Validated world caller root start files name
  distinct : DistinctServers files

section Directory

variable {world : Str → Io} {io : Io} {caller : Caller} {root fileName : Str} {s t : State}

theorem entryEnds_of_eq_ok (h : parseSettingsEntry io caller root fileName s = .ok t) :
    EntryEnds io caller root fileName s t := by
  rw [parseSettingsEntry] at h
  split_ifs at h with hfile hopens
  · obtain rfl := Except.ok.inj h
    have hfile' : isSettingsFile fileName = false := by simpa using hfile
    exact .skipped (by rw [loads, hfile', Bool.false_and])
  · obtain rfl := Except.ok.inj h
    have hopens' : caFileOpens io root fileName = false := by simpa using hopens
    exact .skipped (by rw [loads, hopens', Bool.and_false])
  · have hloads : loads io root fileName = true := by
      rw [loads, Bool.and_eq_true]
      exact ⟨by simpa using hfile, by simpa using hopens⟩
    obtain ⟨⟨validated, u⟩, hvalidate, h⟩ := bind_eq_ok.1 h
    rcases validated
    · obtain rfl := Except.ok.inj h
      exact .dropped hloads hvalidate
    · obtain rfl := Except.ok.inj h
      exact .listed hloads hvalidate

theorem entryEnds_of_load (h : s.load world caller root fileName = some t) :
    EntryEnds (world fileName) caller root fileName s t := by
  refine entryEnds_of_eq_ok ?_
  rw [State.load] at h
  rcases hrun : parseSettingsEntry (world fileName) caller root fileName s with e | u
  · rw [hrun] at h
    cases h
  · rw [hrun] at h
    rw [Option.some.inj h]

theorem serverExists_emplaceServer (name other : Str) (srv : RucioServer) :
    serverExists (s.emplaceServer name srv).servers other = true ↔
      serverExists s.servers other = true ∨ other = name := by
  rw [serverExists, State.emplaceServer, Table.contains_emplace, Bool.or_eq_true,
    decide_eq_true_iff, or_comm, serverExists]

/-- A server that was not there is found as it was entered. -/
theorem find_emplaceServer {name : Str} (srv : RucioServer)
    (hnew : serverExists s.servers name = false) :
    (s.emplaceServer name srv).servers.find name = some srv := by
  have habsent : ¬s.servers.contains name = true := by
    rw [Bool.not_eq_true]
    exact hnew
  show (s.servers.emplace name srv).find name = some srv
  rw [Table.emplace, if_neg habsent, Table.find_insert_self]

/-- **Validation leaves the entered servers and the listed names alone.** -/
theorem sameNames_validate {name : Str} {srv : RucioServer} {validated : Bool}
    (h : rucioValidateServer io name caller (s.emplaceServer name srv) = .ok (validated, t)) :
    SameNames (s.emplaceServer name srv) t := by
  have hthere := (@serverExists_emplaceServer s name name srv).2 (Or.inr rfl)
  obtain ⟨srv', hfind⟩ := Table.contains_eq_true.1 hthere
  exact (rucioValidateServer_eq_ok hfind h).2

/-- What one file adds to the servers. -/
theorem serverExists_load (h : s.load world caller root fileName = some t) (name : Str) :
    serverExists t.servers name = true ↔
      serverExists s.servers name = true ∨ name ∈ loadedNames world root [fileName] := by
  rcases entryEnds_of_load h with hloads | ⟨hloads, hvalidate⟩ | ⟨hloads, hvalidate⟩
  · simp [loadedNames, hloads]
  · rw [(sameNames_validate hvalidate).1.serverExists, serverExists_emplaceServer]
    simp [loadedNames, hloads]
  · rw [show serverExists _ name = serverExists _ name from
      (sameNames_validate hvalidate).1.serverExists name, serverExists_emplaceServer]
    simp [loadedNames, hloads]

/-- **What a file adds to the list**, if its server is new: its name, provided that the world lets
the server pass. -/
theorem serverNames_load (h : s.load world caller root fileName = some t)
    (hnew : ∀ name ∈ loadedNames world root [fileName], serverExists s.servers name = false) :
    ∃ added, t.serverNames = s.serverNames ++ added ∧
      added.Sublist (loadedNames world root [fileName]) ∧
      (added = loadedNames world root [fileName] ↔
        (loads (world fileName) root fileName = true →
          Welcomes (world fileName) (serverOf (world fileName) root fileName) s)) := by
  rcases entryEnds_of_load h with hloads | ⟨hloads, hvalidate⟩ | ⟨hloads, hvalidate⟩
  · refine ⟨[], (List.append_nil _).symm, List.nil_sublist _, iff_of_true ?_ fun hloads' ↦ ?_⟩
    · simp [loadedNames, hloads]
    · exact absurd (hloads.symm.trans hloads') Bool.false_ne_true
  all_goals
    have hnames : loadedNames world root [fileName] = [settingsServerName fileName] := by
      simp [loadedNames, hloads]
    rw [hnames] at hnew ⊢
    have hfind := find_emplaceServer (serverOf (world fileName) root fileName)
      (hnew _ List.mem_cons_self)
    obtain ⟨hiff, -, hkept⟩ := rucioValidateServer_eq_ok hfind hvalidate
  · refine ⟨[], by rw [List.append_nil]; exact hkept, List.nil_sublist _, iff_of_false ?_ ?_⟩
    · exact List.cons_ne_nil _ _ ∘ Eq.symm
    · exact fun hwelcome ↦ Bool.false_ne_true (hiff.2 (hwelcome hloads))
  · refine ⟨[settingsServerName fileName], congrArg (· ++ [_]) hkept, List.Sublist.refl _,
      iff_of_true rfl fun _ ↦ hiff.1 rfl⟩

theorem loadedNames_cons (fileName : Str) (files : List Str) :
    loadedNames world root (fileName :: files) =
      loadedNames world root [fileName] ++ loadedNames world root files := by
  rw [loadedNames, loadedNames, loadedNames, ← List.map_append, ← List.filter_append,
    List.singleton_append]

/-- What all files add to the servers. -/
theorem serverExists_run {files : List Str} : ∀ {s t : State},
    exec (State.load world caller root) s files = some t → ∀ name,
      serverExists t.servers name = true ↔
        serverExists s.servers name = true ∨ name ∈ loadedNames world root files := by
  induction files with
  | nil =>
    intro s t h name
    rw [exec_nil, Option.some.injEq] at h
    rw [h]
    exact (or_iff_left List.not_mem_nil).symm
  | cons fileName files ih =>
    intro s t h name
    obtain ⟨u, hu, hrest⟩ := Option.bind_eq_some_iff.1 h
    rw [ih hrest name, serverExists_load hu name, or_assoc, loadedNames_cons fileName files,
      List.mem_append]

/-- **What all files add to the list**, if no two of them describe one server: some of the names,
and all of them exactly if the world lets every server pass. -/
theorem serverNames_run {files : List Str} : ∀ {s t : State},
    exec (State.load world caller root) s files = some t → (loadedNames world root files).Nodup →
    (∀ name ∈ loadedNames world root files, serverExists s.servers name = false) →
    ∃ added, t.serverNames = s.serverNames ++ added ∧
      added.Sublist (loadedNames world root files) ∧
      (added = loadedNames world root files ↔
        StepsMeet (State.load world caller root) (fun s fileName ↦
          loads (world fileName) root fileName = true →
            Welcomes (world fileName) (serverOf (world fileName) root fileName) s) s files) := by
  induction files with
  | nil =>
    intro s t h _ _
    rw [exec_nil, Option.some.injEq] at h
    exact ⟨[], by rw [h, List.append_nil], List.Sublist.refl _, iff_of_true rfl trivial⟩
  | cons fileName files ih =>
    intro s t h hnodup hnew
    obtain ⟨u, hu, hrest⟩ := Option.bind_eq_some_iff.1 h
    rw [loadedNames_cons fileName files] at hnodup hnew ⊢
    obtain ⟨hone, hmany, hdisjoint⟩ := List.nodup_append.1 hnodup
    obtain ⟨first, hfirst, hsub, hiff⟩ := serverNames_load hu fun name hmem ↦
      hnew name (List.mem_append_left _ hmem)
    -- the servers of the other files are still new behind the first one
    have hnew' : ∀ name ∈ loadedNames world root files, serverExists u.servers name = false := by
      intro name hmem
      rw [← Bool.not_eq_true, serverExists_load hu name, not_or]
      refine ⟨?_, fun hfirst' ↦ hdisjoint name hfirst' name hmem rfl⟩
      rw [Bool.not_eq_true]
      exact hnew name (List.mem_append_right _ hmem)
    obtain ⟨later, hlater, hsub', hiff'⟩ := ih hrest hmany hnew'
    refine ⟨first ++ later, by rw [hlater, hfirst, List.append_assoc], hsub.append hsub', ?_⟩
    have hparts :
        first ++ later = loadedNames world root [fileName] ++ loadedNames world root files ↔
        first = loadedNames world root [fileName] ∧ later = loadedNames world root files := by
      refine ⟨fun heq ↦ ?_, fun ⟨hfirst', hlater'⟩ ↦ by rw [hfirst', hlater']⟩
      have hlength := congrArg List.length heq
      rw [List.length_append, List.length_append] at hlength
      have hle := hsub.length_le
      have hle' := hsub'.length_le
      exact ⟨hsub.eq_of_length (by omega), hsub'.eq_of_length (by omega)⟩
    rw [hparts, hiff, hiff']
    refine ⟨fun hmeet v hv ↦ ?_, fun hmeet ↦ hmeet u hu⟩
    obtain rfl : u = v := Option.some.inj (hu.symm.trans hv)
    exact hmeet

/-- Every listed server has been validated. -/
theorem validated_run {start : State} (hstart : start.serverNames = []) {files : List Str}
    (h : exec (State.load world caller root) start files = some s) :
    ∀ name ∈ s.serverNames, Validated world caller root start files name := by
  have hall : exec (State.load world caller root) start files = some s ∧
      ∀ name ∈ s.serverNames, Validated world caller root start files name := by
    refine @run_induction _ _ (State.load world caller root) start (fun _ ↦ True)
      (fun files s ↦ exec (State.load world caller root) start files = some s ∧
        ∀ name ∈ s.serverNames, Validated world caller root start files name)
      ⟨rfl, by simp [hstart]⟩ ?_ files (fun _ _ ↦ trivial) s h
    rintro files fileName s t ⟨hrun, hs⟩ - hstep
    have hlonger : ∀ name, Validated world caller root start files name →
        Validated world caller root start (files ++ [fileName]) name := by
      rintro name ⟨before, file, after, u, v, rfl, hrest⟩
      exact ⟨before, file, after ++ [fileName], u, v, by simp, hrest⟩
    refine ⟨by rw [exec_append, hrun, Option.bind_some, exec_cons, hstep]; rfl, fun name hmem ↦ ?_⟩
    rcases entryEnds_of_load hstep with - | ⟨-, hvalidate⟩ | ⟨-, hvalidate⟩
    · exact hlonger name (hs name hmem)
    · rw [(sameNames_validate hvalidate).2] at hmem
      exact hlonger name (hs name hmem)
    · rcases List.mem_append.1 hmem with hmem | hmem
      · rw [(sameNames_validate hvalidate).2] at hmem
        exact hlonger name (hs name hmem)
      · obtain rfl := List.mem_singleton.1 hmem
        exact ⟨files, fileName, [], s, _, rfl, rfl, hrun, hvalidate⟩
  exact hall.2

theorem nodup_loadedNames {files : List Str} (hnodup : files.Nodup)
    (hdistinct : DistinctServers files) : (loadedNames world root files).Nodup := by
  refine List.Nodup.map_on (fun file hfile file' hfile' hname ↦ ?_) (hnodup.filter _)
  obtain ⟨hmem, hloads⟩ := List.mem_filter.1 hfile
  obtain ⟨hmem', hloads'⟩ := List.mem_filter.1 hfile'
  exact hdistinct file hmem file' hmem' (Bool.and_eq_true_iff.1 hloads).1
    (Bool.and_eq_true_iff.1 hloads').1 hname

/-- **When the two registries agree.** Take any directory, any content of its files, and anything
the world answers meanwhile. Behind a run on empty registries that returns, the registries agree
exactly if no two settings files describe servers of one name, and the world lets every server pass
whose certificate authority file opens. -/
theorem registries_agree_iff {getenv : Option Str} {opendir : Str → Option Directory}
    {dir : Directory} {ruciofsSettingsRoot : Str} {start : State}
    (hservers : start.servers = Table.empty)
    (hnames : start.serverNames = []) (hroot : getenv.getD ruciofsSettingsRoot = root)
    (hdir : opendir root = some dir)
    (h : parseSettingsCfg world caller getenv opendir ruciofsSettingsRoot start = .ok s) :
    RegistriesAgree world caller root start dir.names s ↔
      DistinctServers dir.names ∧
        StepsMeet (State.load world caller root) (fun s fileName ↦
          loads (world fileName) root fileName = true →
            Welcomes (world fileName) (serverOf (world fileName) root fileName) s)
          start dir.names := by
  simp only [parseSettingsCfg, hroot, hdir] at h
  have hrun : exec (State.load world caller root) start dir.names = some s := exec_of_foldlM h
  have hnone : ∀ name, serverExists start.servers name = false := fun name ↦ by rw [hservers]; rfl
  have hexists : ∀ name, serverExists s.servers name = true ↔
      name ∈ loadedNames world root dir.names := by
    intro name
    rw [serverExists_run hrun name, hnone name]
    exact or_iff_right Bool.false_ne_true
  have hall : DistinctServers dir.names → ∃ added, rucioListServers s = added ∧
      (loadedNames world root dir.names).Nodup ∧ added.Sublist (loadedNames world root dir.names) ∧
      (added = loadedNames world root dir.names ↔ _) := fun hdistinct ↦ by
    have hnodup := @nodup_loadedNames world root dir.names dir.nodup hdistinct
    obtain ⟨added, hadded, hsub, hiff⟩ := serverNames_run hrun hnodup fun name _ ↦ hnone name
    exact ⟨added, by rw [rucioListServers, hadded, hnames, List.nil_append], hnodup, hsub, hiff⟩
  constructor
  · intro hagree
    obtain ⟨added, hlisted, hnodup, hsub, hiff⟩ := hall hagree.distinct
    refine ⟨hagree.distinct, hiff.1 ?_⟩
    have hmem : ∀ name, name ∈ added ↔ name ∈ loadedNames world root dir.names := fun name ↦ by
      rw [← hlisted, hagree.mem_iff, hexists]
    have hperm := (List.perm_ext_iff_of_nodup (hlisted ▸ hagree.nodup) hnodup).2 hmem
    exact hsub.eq_of_length hperm.length_eq
  · rintro ⟨hdistinct, hmeet⟩
    obtain ⟨added, hlisted, hnodup, -, hiff⟩ := hall hdistinct
    obtain rfl := hiff.2 hmeet
    exact ⟨hlisted ▸ hnodup, fun name ↦ by rw [hlisted, hexists], validated_run hnames hrun,
      hdistinct⟩

end Directory

/-! ### One settings file -/

/-- A directory with one settings file, of the server `s`. -/
def oneServerDirectory : Directory := ⟨["s.cfg".toList], by simp⟩

/-- A world with the files in question, and the answer of the server to everything. -/
def startupIo (ret : CurlRet) : Io := { sampleIo with
  net := fun _ _ ↦ ret
  readFile := fun path ↦
    if path = "d/s.cfg".toList then some "rucio_host = h\nca_cert = c\n".toList
    else if path = ['c'] then some [] else none }

/-- The servers behind a start, and the names that are listed. -/
def startUp (ret : CurlRet) : Except Fault State :=
  parseSettingsCfg (fun _ ↦ startupIo ret) sampleCaller none
    (fun root ↦ if root = ['d'] then some oneServerDirectory else none) ['d']
    (State.start Table.empty [])

/-- The server answers, and is loaded and listed. -/
theorem registries_agree_iff_welcome :
    ∃ s, startUp ⟨0, []⟩ = .ok s ∧ ['s'] ∈ rucioListServers s ∧
      ∀ name, name ∈ rucioListServers s ↔ serverExists s.servers name = true := by
  have hrun : rucioListServers <$> startUp ⟨0, []⟩ = .ok [['s']] := by decide +kernel
  obtain ⟨s, hs, hlisted⟩ := map_eq_ok hrun
  have hdistinct : DistinctServers oneServerDirectory.names := by
    intro file hfile file' hfile' _ _ _
    rw [List.mem_singleton.1 hfile, List.mem_singleton.1 hfile']
  have hmode : (serverOf (startupIo ⟨0, []⟩) ['d'] "s.cfg".toList).rucioConnParams.rucioAuthMode =
      .userpass := by decide +kernel
  have hagree := (@registries_agree_iff _ _ ['d'] s none _ oneServerDirectory ['d'] _ rfl rfl rfl
    rfl hs).2 ⟨hdistinct, fun t _ ↦ ⟨fun _ ↦ ⟨rfl, ?_⟩, trivial⟩⟩
  · exact ⟨s, hs, by rw [hlisted]; exact List.mem_cons_self, hagree.mem_iff⟩
  · rw [Grants, hmode]
    refine ⟨?_, ?_⟩
    · rw [authResponse, hmode]
      rfl
    · rw [authResponse, hmode]
      rintro ⟨line, hline, -⟩
      exact List.not_mem_nil hline

/-- **A server that cannot be reached stays in the registry.** It is not listed, but it exists. -/
theorem dropped_server_exists :
    ∃ s, startUp ⟨7, []⟩ = .ok s ∧ serverExists s.servers ['s'] = true ∧ rucioListServers s = [] ∧
      ¬RegistriesAgree (fun _ ↦ startupIo ⟨7, []⟩) sampleCaller ['d'] (State.start Table.empty [])
        oneServerDirectory.names s := by
  have hrun : (fun s ↦ (serverExists s.servers ['s'], rucioListServers s)) <$> startUp ⟨7, []⟩ =
      .ok (true, []) := by decide +kernel
  obtain ⟨s, hs, hseen⟩ := map_eq_ok hrun
  obtain ⟨hexists, hlisted⟩ := Prod.mk.inj hseen
  refine ⟨s, hs, hexists, hlisted, fun hagree ↦ ?_⟩
  have hmem := (hagree.mem_iff ['s']).2 hexists
  rw [hlisted] at hmem
  exact List.not_mem_nil hmem

end FusePosix
