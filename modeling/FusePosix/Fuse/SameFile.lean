import FusePosix.Fuse.Naming

/-!
# Reader and downloader mean the same file

The place of a local copy is worked out three times: by `rucio_read` from the path, by the download
job from the DID it was given, and by the download wrapper from that job. The job has no path. It
splits the DID at its first colon, so it gets scope and name back as long as the scope has no colon;
the name may have any (`scopename_eq`, `filename_eq`).

`Attempt.opened` is the answer of `fopen` during a pass. `rucioDownloadWrapperOn` is the pass with
the files themselves, and `rucioDownloadWrapperOn_eq` says which file the answer is about.
-/

namespace FusePosix

/-! ### The file a pass opens -/

/-- One pass over a job, with the files that can be opened when the command has ended. -/
def rucioDownloadWrapperOn (servers : ServerMap) (a : Attempt) (canOpen : Str → Bool)
    (info : RucioDownloadInfo) : Except Fault (RucioDownloadInfo × Option Str) := do
  if !serverExists servers info.fserverName then
    return ({ info with freturnCode := serverNotFound }, none)
  else if info.fattempt < maxAttempts ∧ info.freturnCode ≠ settingsNotFound then
    let info := { info with fattempt := info.fattempt + 1 }
    let scopename := info.scopename
    let filename ← info.filename
    let cachePath := rucioCachePath ++ ['/'] ++ info.fserverName ++ ['/'] ++ scopename
    let filePath := cachePath ++ ['/'] ++ filename
    let did := scopename ++ [':'] ++ filename
    let (newCfg, info) ← newConfig a info
    let command := downloadCommand newCfg cachePath did
    if canOpen filePath then
      return ({ info with freturnCode := 0, fdownloaded := true }, some command)
    else
      return ({ info with freturnCode := fileNotFound, fdownloaded := false }, some command)
  else
    return ({ info with freturnCode := tooManyAttempts, fdownloaded := false }, none)

/-- **The answer of `fopen` is about the file of the job.** -/
theorem rucioDownloadWrapperOn_eq (servers : ServerMap) (a : Attempt) (canOpen : Str → Bool)
    {info : RucioDownloadInfo} {file : Str} (h : info.fullCachePath = .ok file) :
    rucioDownloadWrapperOn servers a canOpen info =
      rucioDownloadWrapper servers { a with opened := canOpen file } info := by
  obtain ⟨filename, hfilename, hfile⟩ := bind_eq_ok.1 h
  obtain rfl := Except.ok.inj hfile
  set next : RucioDownloadInfo := { info with fattempt := info.fattempt + 1 }
  have hname : next.filename = .ok filename := hfilename
  rw [rucioDownloadWrapperOn, rucioDownloadWrapper]
  by_cases hserver : (!serverExists servers info.fserverName) = true
  · rw [if_pos hserver, if_pos hserver]
  by_cases hleft : info.fattempt < maxAttempts ∧ info.freturnCode ≠ settingsNotFound
  · rw [if_neg hserver, if_neg hserver, if_pos hleft, if_pos hleft]
    show (next.filename >>= fun _ ↦ _) = (next.filename >>= fun _ ↦ _)
    rw [hname]
    rfl
  · rw [if_neg hserver, if_neg hserver, if_neg hleft, if_neg hleft]

/-- **A command that is run names the DID of the job.** -/
theorem command_of_rucioDownloadWrapper {servers : ServerMap} {a : Attempt}
    {job job' : RucioDownloadInfo} {name command : Str} (hname : job.filename = .ok name)
    (h : rucioDownloadWrapper servers a job = .ok (job', some command)) :
    ∃ newCfg, command = downloadCommand newCfg job.cacheDir (job.scopename ++ [':'] ++ name) := by
  cases passEnds_of_eq_ok h with
  | attempted hserver hleft hcfg hfilename =>
    obtain rfl := Except.ok.inj (hname.symm.trans hfilename)
    exact ⟨_, rfl⟩

/-! ### A DID and its parts -/

section Parts

variable {servers : ServerMap} {path username scope name : Str} {info job : RucioDownloadInfo}

/-- What a job keeps of the constructor: the server of the path, the DID, and the place of its first
colon. -/
theorem job_of_ofPath (h : RucioDownloadInfo.ofPath servers (scope ++ [':'] ++ name) path username =
    .ok info) (hjob : job.order = info.order) :
    job.fserverName = extractServerName path ∧ job.fdid = scope ++ [':'] ++ name ∧
      job.fpos = (scope ++ [':'] ++ name).idxOf? ':' := by
  obtain ⟨config, -, hret⟩ := bind_eq_ok.1 h
  obtain rfl := Except.ok.inj hret
  simp only [RucioDownloadInfo.order, RucioDownloadInfo.mk.injEq] at hjob
  exact ⟨hjob.1, hjob.2.2.1, hjob.2.2.2.2.1⟩

variable (hdid : job.fdid = scope ++ [':'] ++ name)
  (hpos : job.fpos = (scope ++ [':'] ++ name).idxOf? ':') (hcolon : ':' ∉ scope)

include hdid hpos hcolon

/-- The scope is what stands in front of the first colon. -/
theorem scopename_eq : job.scopename = scope := by
  rw [List.append_assoc, List.singleton_append, Text.idxOf?_append_cons hcolon] at hpos
  rw [RucioDownloadInfo.scopename, hpos, hdid, List.append_assoc]
  exact List.take_left

/-- The name is what stands behind it. -/
theorem filename_eq : job.filename = .ok name := by
  rw [List.append_assoc, List.singleton_append, Text.idxOf?_append_cons hcolon] at hpos
  have hlength : scope.length + 1 = (scope ++ [':']).length := by simp
  rw [RucioDownloadInfo.filename, hpos, hdid]
  simp only
  rw [hlength, substr_append]

end Parts

/-! ### Agreement -/

/-- What a read of a path works out. -/
theorem wantedOf_mkPath (c e : Component) (cs : List Component) (trailing : Bool) :
    wantedOf (mkPath (c :: e :: cs) trailing) = .ok {
      path := mkPath (c :: e :: cs) trailing
      did := e.text ++ [':'] ++ ((c :: e :: cs).getLast (List.cons_ne_nil _ _)).text
      cachePath := rucioCachePath ++ ['/'] ++ c.text ++ ['/'] ++ e.text ++ ['/'] ++
        ((c :: e :: cs).getLast (List.cons_ne_nil _ _)).text } := by
  have hname := extractName_mkPath (c :: e :: cs).dropLast
    ((c :: e :: cs).getLast (List.cons_ne_nil _ _)) trailing
  rw [List.dropLast_append_getLast] at hname
  rw [wantedOf, getDid_mkPath, ok_bind, extractServerName_mkPath, extractScope_mkPath, ok_bind,
    hname, ok_bind, pure_eq_ok, List.append_assoc e.text, List.singleton_append]

/-- The text of a command. -/
theorem downloadCommand_eq (newCfg cachePath did : Str) :
    downloadCommand newCfg cachePath did =
      "/home/jansson/venv/rucio_venv/bin/rucio --config ".toList ++ newCfg ++
        " download --no-subdir --dir ".toList ++ cachePath ++ " ".toList ++ did :=
  rfl

/-- **Reader and downloader agree on the file.** For a path `/server/scope/…/name`, with or without
a trailing slash, whose scope has no colon: let a read work out DID and cache path, and let a job be
built for that DID and path. At every stage of its life the job means that cache path, and it is the
file a pass opens; its parts are the scope and the name of the path, and the command of a pass asks
for the DID `scope:name`, in the directory of that file. -/
theorem reader_and_downloader_agree (c e : Component) (cs : List Component) (trailing : Bool)
    (hcolon : ':' ∉ e.text) :
    ∃ wanted name, wantedOf (mkPath (c :: e :: cs) trailing) = .ok wanted ∧
      name = ((c :: e :: cs).getLast (List.cons_ne_nil _ _)).text ∧
      getDid (mkPath (c :: e :: cs) trailing) = .ok wanted.did ∧
      wanted.cachePath =
        "/ruciofs-cache/".toList ++ c.text ++ ['/'] ++ e.text ++ ['/'] ++ name ∧
      ∀ servers username info,
        RucioDownloadInfo.ofPath servers wanted.did (mkPath (c :: e :: cs) trailing) username =
          .ok info →
        ∀ job : RucioDownloadInfo, job.order = info.order →
          job.fullCachePath = .ok wanted.cachePath ∧
          job.scopename = e.text ∧ job.filename = .ok name ∧
          ∀ a canOpen,
            rucioDownloadWrapperOn servers a canOpen job =
              rucioDownloadWrapper servers { a with opened := canOpen wanted.cachePath } job ∧
            ∀ job' command, rucioDownloadWrapper servers a job = .ok (job', some command) →
              ∃ newCfg, command =
                "/home/jansson/venv/rucio_venv/bin/rucio --config ".toList ++ newCfg ++
                  " download --no-subdir --dir ".toList ++ ("/ruciofs-cache/".toList ++ c.text ++
                  ['/'] ++ e.text) ++ " ".toList ++ (e.text ++ [':'] ++ name) := by
  have hwanted := wantedOf_mkPath c e cs trailing
  refine ⟨_, _, hwanted, rfl, (wantedOf_eq_ok hwanted).2, rfl, ?_⟩
  intro servers username info hinfo job hjob
  obtain ⟨hserver, hdid, hpos⟩ := job_of_ofPath hinfo hjob
  have hscope := scopename_eq hdid hpos hcolon
  have hname := filename_eq hdid hpos hcolon
  have hdir : job.cacheDir = "/ruciofs-cache/".toList ++ c.text ++ ['/'] ++ e.text := by
    rw [RucioDownloadInfo.cacheDir, hserver, hscope, extractServerName_mkPath]
    rfl
  have hfile : job.fullCachePath = .ok (rucioCachePath ++ ['/'] ++ c.text ++ ['/'] ++ e.text ++
      ['/'] ++ ((c :: e :: cs).getLast (List.cons_ne_nil _ _)).text) := by
    rw [RucioDownloadInfo.fullCachePath, hname, ok_bind, hdir, pure_eq_ok]
    rfl
  refine ⟨hfile, hscope, hname, fun a canOpen ↦ ⟨rucioDownloadWrapperOn_eq servers a canOpen hfile,
    fun job' command h ↦ ?_⟩⟩
  obtain ⟨newCfg, rfl⟩ := command_of_rucioDownloadWrapper hname h
  exact ⟨newCfg, by rw [downloadCommand_eq, hscope, hdir]⟩

/-- A job for `/s/s/s/` that has been tried twice, and the command of its third pass. -/
theorem reader_and_downloader_agree_third :
    ∃ (wanted : Wanted) (job job' : RucioDownloadInfo) (newCfg : Str),
      wantedOf (mkPath [serverS, serverS, serverS] true) = .ok wanted ∧
      job.fattempt = 2 ∧ job.fullCachePath = .ok wanted.cachePath ∧
      job.scopename = ['s'] ∧ job.filename = .ok ['s'] ∧
      rucioDownloadWrapper sampleServers sampleAttempt job = .ok (job', some
        ("/home/jansson/venv/rucio_venv/bin/rucio --config ".toList ++ newCfg ++
          " download --no-subdir --dir ".toList ++ "/ruciofs-cache/s/s".toList ++ " ".toList ++
          "s:s".toList)) := by
  obtain ⟨wanted, name, hwanted, rfl, -, -, hjobs⟩ := reader_and_downloader_agree serverS
    serverS [serverS] true (by decide)
  have hserver : sampleServers.find (extractServerName (mkPath
      [serverS, serverS, serverS] true)) = some sampleServer := by
    rw [extractServerName_mkPath]
    rfl
  obtain ⟨info, hinfo⟩ : ∃ info, RucioDownloadInfo.ofPath sampleServers wanted.did _ ['j'] =
    .ok info := ⟨_, ofPath_eq hserver wanted.did ['j']⟩
  have hfresh := fresh_of_ofPath hinfo
  let job : RucioDownloadInfo := { info with fattempt := 2, freturnCode := 1 }
  have hloaded : job.Loaded sampleServers :=
    ⟨hfresh.server, hfresh.config, hfresh.folder, hfresh.pos⟩
  have hleft : job.fattempt < maxAttempts := show 2 < maxAttempts by decide
  have hcode : job.freturnCode ≠ settingsNotFound := show (1 : ℤ) ≠ settingsNotFound by decide
  obtain ⟨hfile, hscope, hname, hpasses⟩ := hjobs sampleServers ['j'] info hinfo job rfl
  obtain ⟨_, _, _, -, -, -, hrun⟩ :=
    rucioDownloadWrapper_attempt hloaded hleft hcode sampleAttempt
  obtain ⟨newCfg, hcommand⟩ := (hpasses sampleAttempt fun _ ↦ true).2 _ _ hrun
  rw [hcommand] at hrun
  exact ⟨wanted, job, _, newCfg, hwanted, rfl, hfile, hscope, hname, hrun⟩

end FusePosix
