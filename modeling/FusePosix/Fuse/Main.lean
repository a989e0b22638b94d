import FusePosix.Fuse.Acts

/-!
# The process

`main` reads the settings of the servers, creates the mount point and the cache directory, checks
both, and hands the callbacks to FUSE. From then on the process is the mount. Both parts are one
labelled system here (`Process.step`), so that a run begins with empty registries: first a settings
file after the other, then the steps of the mount.

The values of options are read at the position behind the option, which is outside of the command
line if the option comes last. The log level, which `-v` and `-vv` set, has no effect on anything
else and is left out.

What a start leaves behind is final: the mount changes neither the settings of a server nor the list
of the servers that have been validated. So the root directory always shows that list
(`root_shows_validated`).
-/

namespace FusePosix

open Transition

/-! ### The command line -/

/-- The value of an option, if the option is there: what stands behind it. -/
def optionValue (argvect : List Str) (option : Str) : Option (Except Fault Str) :=
  (argvect.idxOf? option).map fun pos ↦ deref argvect[pos + 1]?

/-- Where settings are looked for if nobody says so. -/
def defaultSettingsRoot : Str := "./rucio-settings".toList

/-- The directory of the settings that the command line names. -/
def settingsRootOption (argvect : List Str) : Except Fault Str :=
  match optionValue argvect "-c".toList with
  | some value => value
  | none =>
    match optionValue argvect "--config".toList with
    | some value => value
    | none => return defaultSettingsRoot

/-- Where the file system is mounted if nobody says so. -/
def defaultMountPath : Str := "/ruciofs".toList

/-- The mount point that the command line names. -/
def mountPathOption (argvect : List Str) : Except Fault Str :=
  match optionValue argvect "-f".toList with
  | some value => value
  | none => return defaultMountPath

/-! ### `main` -/

/-- What the process meets when it starts. -/
structure MainIo where
  /-- The user the process runs as. -/
  starter : Caller
  /-- The variable `RUCIOFS_SETTINGS_FILES_ROOT`, if it is set. -/
  getenv : Option Str
  opendir : Str → Option Directory
  /-- What the world answers while a settings file is looked at. -/
  world : Str → Io
  /-- Whether a directory can be accessed, once both have been created. -/
  access : Str → Bool

/-- `check_permissions`. -/
def checkPermissions (access : Str → Bool) (mountpointPath : Str) : Bool :=
  if !access mountpointPath then false
  else if !access rucioCachePath then false
  else true

/-- What becomes of the process. -/
inductive MainEnds where
  | exited (code : ℤ)
  /-- The callbacks are handed to FUSE, with these arguments. -/
  | mounted (fuseArgv : List Str) (m : Mount)

/-- `main`, up to the call of `fuse_main`. -/
def main (io : MainIo) (argv : List Str) : Except Fault MainEnds := do
  let root ← settingsRootOption argv
  let rest ← parseSettingsCfg io.world io.starter io.getenv io.opendir root
    (State.start Table.empty [])
  let mountPath ← mountPathOption argv
  if !checkPermissions io.access mountPath then return .exited 1
  else
    let program ← deref argv.head?
    return .mounted [program, "-f".toList, mountPath, "-o".toList, "allow_other".toList]
      (Mount.start rest)

/-! ### Runs of the process -/

/-- Who has started the process, and where its settings are. -/
structure Process where
  starter : Caller
  root : Str

/-- One step of the process. -/
inductive ProcessAction where
  /-- An entry of the directory of the settings is looked at. -/
  | entry (io : Io) (fileName : Str)
  | mount (a : MountAction)

/-- The process before anything has happened. -/
def Process.start : Mount := Mount.start (State.start Table.empty [])

/-- The process after a step. -/
def Process.step (p : Process) (m : Mount) : ProcessAction → Option Mount
  | .entry io fileName =>
    (parseSettingsEntry io p.starter p.root fileName m.rest).toOption.map fun rest ↦
      { m with rest }
  | .mount a => m.step a

/-- The directory the settings are read from: the environment goes before the command line. -/
def MainIo.settingsRoot (io : MainIo) (argv : List Str) : Except Fault Str :=
  io.getenv.getD <$> settingsRootOption argv

/-- What is looked at while the process starts. -/
def MainIo.entries (io : MainIo) (root : Str) : List ProcessAction :=
  ((io.opendir root).elim [] Directory.names).map fun fileName ↦
    .entry (io.world fileName) fileName

section Main

variable {io : MainIo} {argv fuseArgv : List Str} {m m' : Mount} {p : Process}

/-- What a start goes through. -/
theorem main_eq_mounted (h : main io argv = .ok (.mounted fuseArgv m)) :
    ∃ root rest, io.settingsRoot argv = .ok root ∧ m = Mount.start rest ∧
      exec (State.load io.world io.starter root) (State.start Table.empty [])
        ((io.opendir root).elim [] Directory.names) = some rest := by
  obtain ⟨named, hnamed, h⟩ := bind_eq_ok.1 h
  obtain ⟨rest, hrest, h⟩ := bind_eq_ok.1 h
  obtain ⟨mountPath, -, h⟩ := bind_eq_ok.1 h
  split_ifs at h with haccess
  · exact nomatch Except.ok.inj h
  obtain ⟨program, -, h⟩ := bind_eq_ok.1 h
  obtain ⟨-, rfl⟩ := MainEnds.mounted.inj (Except.ok.inj h)
  refine ⟨io.getenv.getD named, rest, by rw [MainIo.settingsRoot, hnamed]; rfl, rfl, ?_⟩
  simp only [parseSettingsCfg] at hrest
  rcases hdir : io.opendir (io.getenv.getD named) with - | dir
  · rw [hdir] at hrest
    exact congrArg some (Except.ok.inj hrest)
  · rw [hdir] at hrest
    exact exec_of_foldlM hrest

end Main

/-! ### What stays as it is -/

section Mounted

variable {m m' : Mount} {actions : List MountAction}

/-- **The mount changes neither the settings nor the list of the servers.** -/
theorem sameNames_step {a : MountAction} (h : m.step a = some m') : SameNames m.rest m'.rest := by
  rcases stepDoes_of_step h with ⟨-, hacts⟩ | ⟨-, hrest⟩ | ⟨-, hends⟩
  · exact ⟨hacts.settings, hacts.serverNames⟩
  · rw [hrest]
    exact ⟨sameSettings_refl _, rfl⟩
  · refine ⟨(quiet_oidcLoginEnds hends).settings, ?_⟩
    obtain ⟨login, -, hends⟩ := bind_eq_ok.1 hends
    simp only at hends
    split_ifs at hends
    · rw [← Except.ok.inj hends]
    · obtain ⟨info, hstored⟩ := exists_of_storeOidcToken hends
      rw [hstored]

theorem sameNames_run (h : exec Mount.step m actions = some m') : SameNames m.rest m'.rest := by
  refine @run_induction _ _ Mount.step m (fun _ ↦ True) (fun _ m' ↦ SameNames m.rest m'.rest)
    ⟨sameSettings_refl _, rfl⟩ ?_ actions (fun _ _ ↦ trivial) m' h
  rintro as a t u ⟨hsettings, hnames⟩ - hstep
  obtain ⟨hsettings', hnames'⟩ := sameNames_step hstep
  exact ⟨hsettings.trans hsettings', hnames'.trans hnames⟩

end Mounted

/-! ### The root -/

section Root

variable {world : Str → Io} {starter : Caller} {root : Str} {start s t : State} {files : List Str}

/-- Whether the server of a file is entered and passes validation, if the file is looked at in a
state. -/
def passes (world : Str → Io) (starter : Caller) (root : Str) (s : State) (fileName : Str) : Bool :=
  loads (world fileName) root fileName &&
    match rucioValidateServer (world fileName) (settingsServerName fileName) starter
        (s.emplaceServer (settingsServerName fileName) (serverOf (world fileName) root fileName))
      with
    | .ok (validated, _) => validated
    | .error _ => false

/-- The files whose servers pass, one after the other, if some files have been read before them. -/
def passedFiles (world : Str → Io) (starter : Caller) (root : Str) (start : State)
    (before : List Str) : List Str → List Str
  | [] => []
  | fileName :: after =>
    (if (exec (State.load world starter root) start before).any
        (passes world starter root · fileName) then [fileName] else []) ++
      passedFiles world starter root start (before ++ [fileName]) after

/-- A server has been entered and has passed validation, while the files were read. -/
def Passed (world : Str → Io) (starter : Caller) (root : Str) (start : State) (files : List Str)
    (name : Str) : Prop :=
  ∃ before fileName after s t, files = before ++ fileName :: after ∧
    settingsServerName fileName = name ∧ loads (world fileName) root fileName = true ∧
    exec (State.load world starter root) start before = some s ∧
    rucioValidateServer (world fileName) name starter
      (s.emplaceServer name (serverOf (world fileName) root fileName)) = .ok (true, t)

/-- A file passes if it is entered and validation says so. -/
theorem passes_eq_true_iff {fileName : Str} :
    passes world starter root s fileName = true ↔
      loads (world fileName) root fileName = true ∧
        ∃ t, rucioValidateServer (world fileName) (settingsServerName fileName) starter
          (s.emplaceServer (settingsServerName fileName)
            (serverOf (world fileName) root fileName)) = .ok (true, t) := by
  rw [passes, Bool.and_eq_true]
  refine and_congr_right fun _ ↦ ?_
  rcases rucioValidateServer (world fileName) (settingsServerName fileName) starter
    (s.emplaceServer (settingsServerName fileName)
      (serverOf (world fileName) root fileName)) with e | ⟨validated, t⟩
  · simp
  · simp

/-- Files that pass are files that are entered. -/
theorem passedFiles_sublist : ∀ {before : List Str},
    ((passedFiles world starter root start before files).map settingsServerName).Sublist
      (loadedNames world root files) := by
  induction files with
  | nil => exact List.Sublist.refl _
  | cons fileName files ih =>
    intro before
    rw [passedFiles, List.map_append, loadedNames_cons fileName files]
    refine List.Sublist.append ?_ ih
    split_ifs with hpasses
    · obtain ⟨s, -, hs⟩ := (Option.any_eq_true _ _).1 hpasses
      have hloads := (passes_eq_true_iff.1 hs).1
      simp [loadedNames, hloads]
    · exact List.nil_sublist _

/-- The files that pass are those at which validation says so, wherever they stand. -/
theorem mem_passedFiles_iff {file : Str} : ∀ {before : List Str},
    file ∈ passedFiles world starter root start before files ↔
      ∃ here after s, files = here ++ file :: after ∧
        exec (State.load world starter root) start (before ++ here) = some s ∧
        passes world starter root s file = true := by
  induction files with
  | nil => simp [passedFiles]
  | cons fileName files ih =>
    intro before
    rw [passedFiles, List.mem_append, ih]
    constructor
    · rintro (hfirst | ⟨here, after, s, rfl, hrun, hpasses⟩)
      · split_ifs at hfirst with hany
        · obtain rfl := List.mem_singleton.1 hfirst
          obtain ⟨s, hrun, hpasses⟩ := (Option.any_eq_true _ _).1 hany
          exact ⟨[], files, s, rfl, by rw [List.append_nil]; exact hrun, hpasses⟩
        · exact absurd hfirst List.not_mem_nil
      · exact ⟨fileName :: here, after, s, rfl, by rw [← hrun, List.append_assoc]; rfl, hpasses⟩
    · rintro ⟨here, after, s, heq, hrun, hpasses⟩
      rcases here with - | ⟨first, here⟩
      · obtain ⟨rfl, rfl⟩ := List.cons.inj heq
        rw [List.append_nil] at hrun
        refine Or.inl ?_
        rw [if_pos ((Option.any_eq_true _ _).2 ⟨s, hrun, hpasses⟩)]
        exact List.mem_singleton_self _
      · obtain ⟨rfl, rfl⟩ := List.cons.inj heq
        exact Or.inr ⟨here, after, s, rfl, by rw [← hrun, List.append_assoc]; rfl, hpasses⟩

/-- So the servers of these files are those that have passed. -/
theorem mem_map_passedFiles_iff {name : Str} :
    name ∈ (passedFiles world starter root start [] files).map settingsServerName ↔
      Passed world starter root start files name := by
  rw [List.mem_map]
  constructor
  · rintro ⟨file, hmem, rfl⟩
    obtain ⟨before, after, s, heq, hrun, hpasses⟩ := mem_passedFiles_iff.1 hmem
    obtain ⟨hloads, t, hvalidate⟩ := passes_eq_true_iff.1 hpasses
    exact ⟨before, file, after, s, t, heq, rfl, hloads, hrun, hvalidate⟩
  · rintro ⟨before, file, after, s, t, heq, rfl, hloads, hrun, hvalidate⟩
    exact ⟨file, mem_passedFiles_iff.2 ⟨before, after, s, heq, hrun,
      passes_eq_true_iff.2 ⟨hloads, t, hvalidate⟩⟩, rfl⟩

/-- What a file adds to the list of servers: its own if it passes. -/
theorem serverNames_of_load {fileName : Str} (h : s.load world starter root fileName = some t) :
    t.serverNames = s.serverNames ++
      (if passes world starter root s fileName then [fileName] else []).map settingsServerName := by
  rcases entryEnds_of_load h with hloads | ⟨-, hvalidate⟩ | ⟨hloads, hvalidate⟩
  · rw [passes, hloads]
    exact (List.append_nil _).symm
  · have hpasses : passes world starter root s fileName = false := by
      rw [passes, hvalidate, Bool.and_false]
    rw [hpasses]
    exact (sameNames_validate hvalidate).2.trans (List.append_nil _).symm
  · rw [if_pos (passes_eq_true_iff.2 ⟨hloads, _, hvalidate⟩)]
    exact congrArg (· ++ [_]) (sameNames_validate hvalidate).2

/-- What all files add to it. -/
theorem serverNames_of_run : ∀ {before : List Str} {s : State},
    exec (State.load world starter root) start before = some s →
    exec (State.load world starter root) s files = some t →
    t.serverNames = s.serverNames ++
      (passedFiles world starter root start before files).map settingsServerName := by
  induction files with
  | nil =>
    intro before s _ h
    rw [exec_nil, Option.some.injEq] at h
    rw [h]
    exact (List.append_nil _).symm
  | cons fileName files ih =>
    intro before s hbefore h
    obtain ⟨u, hu, hrest⟩ := Option.bind_eq_some_iff.1 h
    have hnext : exec (State.load world starter root) start (before ++ [fileName]) = some u := by
      rw [exec_append, hbefore, Option.bind_some, exec_cons, hu]
      rfl
    rw [ih hnext hrest, serverNames_of_load hu, passedFiles, hbefore, List.map_append,
      List.append_assoc]
    rfl

/-- **The root shows the servers that have passed.** Take any command line, any environment and any
directory of settings, whatever the world answers while they are read. If the process mounts, then
in every state that its users, its download workers and its login threads bring about, the root can
be listed and looked at by everybody without a token, nothing changes by that, and what is shown are
the names of the servers that passed validation at the start: one for each file whose server passed,
in the order of the files. -/
theorem root_shows_validated {io : MainIo} {argv fuseArgv : List Str} {m m' : Mount}
    {actions : List MountAction} (h : main io argv = .ok (.mounted fuseArgv m))
    (hrun : exec Mount.step m actions = some m') :
    ∃ root names, io.settingsRoot argv = .ok root ∧
      names = (passedFiles io.world io.starter root (State.start Table.empty []) []
        ((io.opendir root).elim [] Directory.names)).map settingsServerName ∧
      names.Sublist (loadedNames io.world root ((io.opendir root).elim [] Directory.names)) ∧
      (∀ name, name ∈ names ↔ Passed io.world io.starter root (State.start Table.empty [])
        ((io.opendir root).elim [] Directory.names) name) ∧
      ∀ (now : Io) (caller : Caller) (st : Stat),
        rucioReaddir now ['/'] caller m' = .ok ((0, finalizeFiller names), m') ∧
        rucioGetattr now ['/'] caller st m' = .ok ((0, { st.stamped now with
          mode := directoryMode, nlink := 2 + names.length }), m') := by
  obtain ⟨root, rest, hroot, rfl, hload⟩ := main_eq_mounted h
  have hnames : m'.rest.serverNames =
      (passedFiles io.world io.starter root (State.start Table.empty []) []
        ((io.opendir root).elim [] Directory.names)).map settingsServerName :=
    (sameNames_run hrun).2.trans
      (serverNames_of_run (exec_nil _ _) hload)
  refine ⟨root, _, hroot, rfl, passedFiles_sublist, fun name ↦ mem_map_passedFiles_iff,
    fun now caller st ↦ ?_⟩
  rw [← hnames]
  exact ⟨rfl, rfl⟩

end Root

/-- The process is started with the settings of one server, which answers everything. -/
def sampleMainIo : MainIo where
  starter := sampleCaller
  getenv := none
  opendir := fun root ↦ if root = ['d'] then some oneServerDirectory else none
  world := fun _ ↦ startupIo ⟨0, []⟩
  access := fun _ ↦ true

/-- The command line of such a start. -/
def sampleArgv : List Str := [['r'], "-c".toList, ['d'], "-f".toList, "/m".toList]

/-- The server does not answer somebody who has no token. -/
def sampleRefusal : MountAction :=
  .background (.readdir unreachableIo ['/', 's'] { sampleCaller with uid := 9 })

/-- The process mounts, and the call is one of its steps. -/
theorem sampleMain_runs : ∃ fuseArgv m m',
    main sampleMainIo sampleArgv = .ok (.mounted fuseArgv m) ∧
    exec Mount.step m [sampleRefusal] = some m' ∧ m'.rest.serverNames = [['s']] ∧
    m'.rest.log.length = 3 := by
  have hseen : (match main sampleMainIo sampleArgv with
      | .ok (.mounted _ m) => (exec Mount.step m [sampleRefusal]).map fun m' ↦
          (m'.rest.serverNames, m'.rest.log.length)
      | _ => none) = some ([['s']], 3) := by decide +kernel
  rcases hmain : main sampleMainIo sampleArgv with e | code | ⟨fuseArgv, m⟩
  · rw [hmain] at hseen
    exact nomatch hseen
  · rw [hmain] at hseen
    exact nomatch hseen
  rw [hmain] at hseen
  obtain ⟨m', hm, heq⟩ := Option.map_eq_some_iff.1 hseen
  obtain ⟨hnames, hlength⟩ := Prod.mk.inj heq
  exact ⟨fuseArgv, m, m', rfl, hm, hnames, hlength⟩

/-- Somebody has been refused. The server that passed at the start is shown all the same. -/
theorem root_shows_validated_sample : ∃ fuseArgv m m',
    main sampleMainIo sampleArgv = .ok (.mounted fuseArgv m) ∧
    exec Mount.step m [sampleRefusal] = some m' ∧
    rucioReaddir sampleIo ['/'] sampleCaller m' = .ok ((0, [['s'], ['.'], ['.', '.']]), m') := by
  obtain ⟨fuseArgv, m, m', hmain, hm, hnames, -⟩ := sampleMain_runs
  obtain ⟨root, names, -, -, -, -, hshown⟩ := root_shows_validated hmain hm
  obtain ⟨hlisted, -⟩ := hshown sampleIo sampleCaller {}
  have hentries : finalizeFiller m'.rest.serverNames = finalizeFiller names :=
    congrArg (fun result ↦ result.toOption.elim [] fun answer ↦ answer.1.2) hlisted
  rw [hnames] at hentries
  refine ⟨fuseArgv, m, m', hmain, hm, ?_⟩
  rw [hlisted, ← hentries]
  rfl

end FusePosix
