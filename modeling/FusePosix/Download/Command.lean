import FusePosix.Download.Job
import FusePosix.Lib.Shell
import FusePosix.Utils.PathAlgebra

/-!
# The download command as the shell reads it

`rucioDownloadWrapper` joins the parts of its command by blanks and quotes none of them, so the
shell gives them back as the words they were exactly if all of them are bare
(`Shell.shellWords_join_iff`). Four of the eight words are fixed and bare. The other four are made
of what the caller and the settings supply: the path of the per-user settings, the cache directory
with the server and the scope in it, and the DID with the scope and the name.

`download_command_words_iff` says what this means for the path behind the job: the components it is
made of must consist of ordinary characters, the scope must not open a comment, and the settings
path must be there and bare. A file name with a blank or a semicolon in it is enough to violate
that, and such names reach the command through `rucio_read`.
-/

namespace FusePosix

open Shell

/-- The words the command is meant to have. -/
def downloadWords (newCfg cachePath did : Str) : List Str :=
  [rucioExecutable, "--config".toList, newCfg, "download".toList, "--no-subdir".toList,
    "--dir".toList, cachePath, did]

/-- The wrapper joins the words it means by single blanks. -/
theorem downloadCommand_eq_join (newCfg cachePath did : Str) :
    downloadCommand newCfg cachePath did = join (downloadWords newCfg cachePath did) := by
  have hconfig : " --config ".toList = ' ' :: "--config".toList ++ [' '] := by decide
  have hdir : " download --no-subdir --dir ".toList =
      ' ' :: "download".toList ++ ' ' :: "--no-subdir".toList ++ ' ' :: "--dir".toList ++
        [' '] := by
    decide
  have hblank : " ".toList = [' '] := by decide
  rw [downloadCommand, hconfig, hdir, hblank]
  simp [join, downloadWords, List.intercalate_cons_cons]

/-- The shell reads the words back exactly if the words that are not fixed are bare. -/
theorem shellWords_downloadCommand_iff (newCfg cachePath did : Str) :
    shellWords (downloadCommand newCfg cachePath did) = some (downloadWords newCfg cachePath did) ↔
      Bare newCfg ∧ Bare cachePath ∧ Bare did := by
  have hfixed : Bare rucioExecutable ∧ Bare "--config".toList ∧ Bare "download".toList ∧
      Bare "--no-subdir".toList ∧ Bare "--dir".toList := by decide
  obtain ⟨h1, h2, h3, h4, h5⟩ := hfixed
  rw [downloadCommand_eq_join, shellWords_join_iff]
  simp only [downloadWords, List.forall_mem_cons, h1, h2, h3, h4, h5, true_and]
  simp

/-- A command without a settings path never has the words it is meant to have: there is no room for
them. -/
theorem shellWords_downloadCommand_nil_ne {newCfg : Str} (h : newCfg ≠ []) (cachePath did : Str) :
    shellWords (downloadCommand [] cachePath did) ≠ some (downloadWords newCfg cachePath did) := by
  intro hwords
  have hroom := room_le_of_words _ _ _ _ hwords
  have hlength := length_join_cons rucioExecutable (downloadWords [] cachePath did).tail
  have hheld : held .bare none = 1 := rfl
  have hpos := List.length_pos_iff.2 h
  rw [downloadCommand_eq_join, hheld] at hroom
  simp only [downloadWords, List.tail_cons, room_cons, room_nil, List.length_nil] at hroom hlength
  omega

/-- A cache directory is bare exactly if the server and the scope in it are ordinary. -/
theorem bare_cacheDir_iff (info : RucioDownloadInfo) :
    Bare info.cacheDir ↔ ∀ x ∈ info.fserverName ++ info.scopename, isOrdinary x = true := by
  have hroot : ∀ x ∈ rucioCachePath, isOrdinary x = true := List.all_eq_true.1 rfl
  have hslash : isOrdinary '/' = true := by decide
  have hhead : info.cacheDir.head? = some '/' := rfl
  have hne : info.cacheDir ≠ [] := by
    intro e
    rw [e] at hhead
    simp at hhead
  have hall : (∀ x ∈ info.cacheDir, isOrdinary x = true) ↔
      ∀ x ∈ info.fserverName ++ info.scopename, isOrdinary x = true := by
    simp only [RucioDownloadInfo.cacheDir, List.forall_mem_append, List.forall_mem_singleton,
      hslash, and_true]
    exact ⟨fun h ↦ ⟨h.1.2, h.2⟩, fun h ↦ ⟨⟨hroot, h.1⟩, h.2⟩⟩
  rw [Bare, hhead, hall]
  simp [hne]

/-- A DID is bare exactly if its two parts are ordinary and it does not open a comment. -/
theorem bare_did_iff (d e : Component) :
    Bare (d.text ++ [':'] ++ e.text) ↔
      d.text.head? ≠ some '#' ∧ ∀ x ∈ d.text ++ e.text, isOrdinary x = true := by
  have hcolon : isOrdinary ':' = true := by decide
  obtain ⟨x, v, hd⟩ := List.exists_cons_of_ne_nil d.ne_nil
  have hhead : (d.text ++ [':'] ++ e.text).head? = d.text.head? := by simp [hd]
  have hall : (∀ x ∈ d.text ++ [':'] ++ e.text, isOrdinary x = true) ↔
      ∀ x ∈ d.text ++ e.text, isOrdinary x = true := by
    simp only [List.forall_mem_append, List.forall_mem_singleton, hcolon, and_true]
  rw [Bare, hhead, hall]
  simp

/-- The text in front of the first colon of a DID is a part of it. -/
theorem mem_of_mem_scopename {info : RucioDownloadInfo} {x : Char} (hx : x ∈ info.scopename) :
    x ∈ info.fdid := by
  rw [RucioDownloadInfo.scopename] at hx
  rcases hpos : info.fpos with - | pos <;> rw [hpos] at hx
  · exact hx
  · exact List.mem_of_mem_take hx

/-- The two words a job puts into the command are bare exactly if the path they come from is made of
ordinary characters and the scope does not open a comment. -/
theorem bare_request_iff {info : RucioDownloadInfo} {d e : Component}
    (hdid : info.fdid = d.text ++ [':'] ++ e.text) :
    Bare info.cacheDir ∧ Bare info.fdid ↔
      (∀ x ∈ info.fserverName ++ d.text ++ e.text, isOrdinary x = true) ∧
        d.text.head? ≠ some '#' := by
  have hcolon : isOrdinary ':' = true := by decide
  rw [bare_cacheDir_iff, hdid, bare_did_iff]
  simp only [List.forall_mem_append]
  constructor
  · rintro ⟨⟨hc, -⟩, hhash, hd, he⟩
    exact ⟨⟨⟨hc, hd⟩, he⟩, hhash⟩
  · rintro ⟨⟨⟨hc, hd⟩, he⟩, hhash⟩
    refine ⟨⟨hc, fun x hx ↦ ?_⟩, hhash, hd, he⟩
    -- the scope part ends at the first colon, so its characters are characters of the DID
    have hx' : x ∈ d.text ++ [':'] ++ e.text := hdid ▸ mem_of_mem_scopename hx
    rcases List.mem_append.1 hx' with hx' | hx'
    · rcases List.mem_append.1 hx' with hx' | hx'
      · exact hd x hx'
      · rw [List.mem_singleton.1 hx', hcolon]
    · exact he x hx'

section Command

variable {servers : ServerMap} {srv : RucioServer} {c d e : Component} {cs : List Component}
  {trailing : Bool} {username did command : Str} {job info info' : RucioDownloadInfo} {a : Attempt}

/-- The settings of the user for a server. -/
def userConfig (srv : RucioServer) (username : Str) : Str :=
  configCopyPath srv.configFilePath srv.tempConfigFolder username

theorem userConfig_ne_nil (srv : RucioServer) (username : Str) : userConfig srv username ≠ [] := by
  simp [userConfig, configCopyPath]

/-- The command of a pass that runs one: with the settings copy, if it succeeds. -/
theorem command_eq_of_pass {source folder : Str} (hsource : info.fserverConfig = some source)
    (hfolder : info.tempConfigFolder = some folder) (hpos : info.fpos = info.fdid.idxOf? ':')
    (hcolon : ':' ∈ info.fdid)
    (hrun : rucioDownloadWrapper servers a info = .ok (info', some command)) :
    command = downloadCommand
      (if SettingsCopied a source (configCopyPath source folder info.username) then
        configCopyPath source folder info.username else []) info.cacheDir info.fdid := by
  cases passEnds_of_eq_ok hrun with
  | attempted hserver hleft hcfg hfilename =>
    obtain ⟨filename, hfilename', hjoin⟩ := scopename_filename hpos hcolon
    obtain rfl := Except.ok.inj (hfilename'.symm.trans hfilename)
    set next : RucioDownloadInfo := { info with fattempt := info.fattempt + 1 }
    have hsource' : next.fserverConfig = some source := hsource
    rw [newConfig_eq hsource' hfolder a] at hcfg
    rw [hjoin]
    split_ifs at hcfg with hcopied
    · obtain ⟨rfl, -⟩ := Prod.mk.inj (Except.ok.inj hcfg)
      rw [if_pos hcopied]
    · obtain ⟨rfl, -⟩ := Prod.mk.inj (Except.ok.inj hcfg)
      rw [if_neg hcopied]

/-- **When the command is the one that is meant.** Take the job `rucio_read` builds for a path with
at least three components on a loaded server, before any of its passes. The command a pass runs for
it has exactly the words it is meant to have if and only if the settings copy succeeds, the path of
the copy is bare, server, scope and name consist of ordinary characters and the scope does not start
with a `#`. -/
theorem download_command_words_iff (hserver : servers.find c.text = some srv)
    (hdid : getDid (mkPath (c :: d :: (cs ++ [e])) trailing) = .ok did)
    (hjob : RucioDownloadInfo.ofPath servers did (mkPath (c :: d :: (cs ++ [e])) trailing) username
      = .ok job)
    (hinfo : info.order = job)
    (hrun : rucioDownloadWrapper servers a info = .ok (info', some command)) :
    shellWords command = some (downloadWords (userConfig srv username) job.cacheDir did) ↔
      SettingsCopied a srv.configFilePath (userConfig srv username) ∧
        Bare (userConfig srv username) ∧
        (∀ x ∈ c.text ++ d.text ++ e.text, isOrdinary x = true) ∧ d.text.head? ≠ some '#' := by
  have hname : extractServerName (mkPath (c :: d :: (cs ++ [e])) trailing) = c.text :=
    extractServerName_mkPath _ _ _
  have hpos : info.fpos = info.fdid.idxOf? ':' := by
    have hfresh := fresh_of_ofPath hjob
    rw [← hinfo] at hfresh
    exact hfresh.pos
  have hdid' : did = d.text ++ [':'] ++ e.text := by
    rw [getDid_mkPath c d (cs ++ [e]), Except.ok.injEq] at hdid
    simpa using hdid.symm
  have hserver' : servers.find (extractServerName (mkPath (c :: d :: (cs ++ [e])) trailing)) =
      some srv := by rw [hname, hserver]
  rw [ofPath_eq hserver', Except.ok.injEq, hname] at hjob
  rw [← hjob] at hinfo
  -- what the pass reads off the job is what `rucio_read` put there: no pass has touched these
  -- fields
  have hsource : info.fserverConfig = some srv.configFilePath :=
    congrArg RucioDownloadInfo.fserverConfig hinfo
  have hfolder : info.tempConfigFolder = some srv.tempConfigFolder :=
    congrArg RucioDownloadInfo.tempConfigFolder hinfo
  have huser : info.username = username := congrArg RucioDownloadInfo.username hinfo
  have hsname : info.fserverName = c.text := congrArg RucioDownloadInfo.fserverName hinfo
  have hfdid : info.fdid = did := congrArg RucioDownloadInfo.fdid hinfo
  have hcache : job.cacheDir = info.cacheDir := by
    rw [← hjob, ← hinfo]
    rfl
  have hcommand : command = downloadCommand
      (if SettingsCopied a srv.configFilePath (userConfig srv username) then
        userConfig srv username else []) info.cacheDir info.fdid := by
    rw [command_eq_of_pass hsource hfolder hpos (by rw [hfdid, hdid']; simp) hrun, huser]
    rfl
  rw [hcommand, hcache, ← hfdid]
  -- without the copy the command names no settings file, so a word is missing
  split_ifs with hcopied
  · rw [shellWords_downloadCommand_iff, bare_request_iff (hfdid.trans hdid'),
      hsname]
    exact ⟨fun h ↦ ⟨hcopied, h⟩, fun h ↦ h.2⟩
  · exact iff_of_false (shellWords_downloadCommand_nil_ne (userConfig_ne_nil srv username) _ _)
      fun h ↦ hcopied h.1

end Command

/-! ### A plain name and one with a semicolon in it -/

/-- The command for a file with a plain name is the one that is meant. -/
theorem download_command_words_plain_name :
    shellWords (downloadCommand (userConfig sampleServer ['j']) (sampleJob ['n']).cacheDir
      ['u', ':', 'n']) =
      some (downloadWords (userConfig sampleServer ['j']) (sampleJob ['n']).cacheDir
        ['u', ':', 'n']) :=
  (@download_command_words_iff sampleServers sampleServer ⟨['s'], by decide, by decide, by decide⟩
    ⟨['u'], by decide, by decide, by decide⟩ ⟨['n'], by decide, by decide, by decide⟩ [] false ['j']
    ['u', ':', 'n'] _ (sampleJob ['n']) (sampleJob ['n']) ((sampleJob ['n']).attempted true)
    sampleAttempt rfl (by decide +kernel) (by decide +kernel) rfl (by decide +kernel)).2
    ⟨by decide +kernel, by decide +kernel, List.all_eq_true.1 rfl, by decide⟩

/-- A file name with a semicolon in it ends the command early: the text is not one simple command,
let alone the one that is meant. -/
theorem download_command_words_semicolon :
    getDid ['/', 's', '/', 'u', '/', 'n', ';', 'x'] = .ok ['u', ':', 'n', ';', 'x'] ∧
    RucioDownloadInfo.ofPath sampleServers ['u', ':', 'n', ';', 'x']
      ['/', 's', '/', 'u', '/', 'n', ';', 'x'] ['j'] = .ok (sampleJob ['n', ';', 'x']) ∧
    ∃ command, rucioDownloadWrapper sampleServers sampleAttempt (sampleJob ['n', ';', 'x']) =
        .ok ((sampleJob ['n', ';', 'x']).attempted true, some command) ∧
      shellWords command = none ∧
      shellWords command ≠ some (downloadWords (userConfig sampleServer ['j'])
        (sampleJob ['n', ';', 'x']).cacheDir ['u', ':', 'n', ';', 'x']) := by
  refine ⟨by decide +kernel, by decide +kernel,
    downloadCommand (userConfig sampleServer ['j']) (sampleJob ['n', ';', 'x']).cacheDir
      ['u', ':', 'n', ';', 'x'], by decide +kernel, by decide +kernel, by decide +kernel⟩

end FusePosix
