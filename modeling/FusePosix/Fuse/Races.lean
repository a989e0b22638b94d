import FusePosix.Fuse.Handover
import FusePosix.Fuse.Session

/-!
# Two downloads of one file

A job writes the file its server and its DID name, and no two live jobs should write the same file.
What keeps a read from starting a second download is the flag of its path. That check answers
another question than the one asked: a file can be reached by several paths, and the flag is set
only after the job has been handed over.

* `one_job_per_file_iff` says when the property holds along a run of the fine system: exactly if no
  read hands a job over for a file that a live job writes already. This is the case if every read
  that passes the check is right to do so, that is if its file is neither written by a live job nor
  about to be handed over by another read (`PassesRightly`).
* `second_job_from_alias` says that nothing but a second path can break it as long as reads do not
  interrupt each other.
-/

namespace FusePosix

open Transition

/-! ### Files -/

/-- The file that is written for the DID at a path. -/
def fileOf (path did : Str) : Except Fault Str :=
  RucioDownloadInfo.fullCachePath {
    fserverName := extractServerName path
    fserverConfig := none
    fdid := did
    tempConfigFolder := none
    fpos := did.idxOf? ':'
    username := [] }

/-- The file a read would have downloaded. -/
def Reader.file (r : Reader) : Except Fault Str := fileOf r.call.path r.wanted.did

/-- The files of the live jobs. -/
def Pipeline.liveFiles (p : Pipeline) : List (Except Fault Str) :=
  p.live.map fun job ↦ job.info.fullCachePath

/-- **At most one live job per file.** -/
def Mount.OneJobPerFile (m : Mount) : Prop := m.pipeline.liveFiles.Nodup

instance (m : Mount) : Decidable m.OneJobPerFile :=
  inferInstanceAs (Decidable (List.Nodup _))

/-- The files of the reads that are about to hand a job over. -/
def pendingFiles (readers : List Reader) : List (Except Fault Str) :=
  (readers.filter fun r ↦ r.point = .appendNewDownload).map Reader.file

/-- The files that have a live job or are about to get one. -/
def Session.reserved (s : Session) : List (Except Fault Str) :=
  pendingFiles s.readers ++ s.mount.pipeline.liveFiles

section Files

variable {servers : ServerMap} {p q : Pipeline}

theorem file_of_ofPath {did path username : Str} {info : RucioDownloadInfo}
    (h : RucioDownloadInfo.ofPath servers did path username = .ok info) :
    info.fullCachePath = fileOf path did := by
  obtain ⟨config, -, h⟩ := bind_eq_ok.1 h
  obtain rfl := Except.ok.inj h
  rfl

theorem liveFiles_eq (p : Pipeline) :
    p.liveFiles = p.liveOrders.map RucioDownloadInfo.fullCachePath := by
  rw [Pipeline.liveFiles, Pipeline.liveOrders, List.map_map]
  rfl

theorem liveFiles_append (info : RucioDownloadInfo) :
    (p.append info).liveFiles.Perm (info.fullCachePath :: p.liveFiles) :=
  (live_append info).map _

/-- A worker's step adds no file. -/
theorem liveFiles_work {w : WorkerAction} (h : p.work servers w = some q) :
    q.liveFiles.Subperm p.liveFiles := by
  rcases live_work h with ⟨-, horders⟩ | ⟨job, -, hlive⟩
  · rw [liveFiles_eq, liveFiles_eq]
    exact (horders.map _).subperm
  · have hcons : p.liveFiles.Perm (job.info.fullCachePath :: q.liveFiles) := hlive.map _
    exact (List.sublist_cons_self _ _).subperm.trans hcons.symm.subperm

theorem pendingFiles_perm {readers readers' : List Reader} (h : readers.Perm readers') :
    (pendingFiles readers).Perm (pendingFiles readers') :=
  (h.filter _).map _

theorem pendingFiles_cons_of_ne {r : Reader} (h : r.point ≠ .appendNewDownload)
    (readers : List Reader) : pendingFiles (r :: readers) = pendingFiles readers := by
  rw [pendingFiles, List.filter_cons_of_neg (by simpa using h), pendingFiles]

theorem pendingFiles_cons {r : Reader} (h : r.point = .appendNewDownload)
    (readers : List Reader) : pendingFiles (r :: readers) = r.file :: pendingFiles readers := by
  rw [pendingFiles, List.filter_cons_of_pos (by simpa using h), List.map_cons, pendingFiles]

end Files

/-! ### Steps of a session -/

/-- What a read under way does in one step, as far as jobs are concerned. -/
inductive Advanced (r : Reader) (m : Mount) : Progress → Mount → Prop
  /-- The read has its answer. -/
  | ended (result : ℤ × Str) (m' : Mount) (hpoint : r.point ≠ .appendNewDownload)
      (hdone : m.isDownloading r.call.path = true ∨ r.point ≠ .isDownloading)
      (hpipeline : m'.pipeline = m.pipeline) : Advanced r m (.done result) m'
  /-- The file is not in the cache. -/
  | notCached (hpoint : r.point = .isCached) :
      Advanced r m (.next { r with point := .isDownloading }) m
  /-- The path has no flag. -/
  | notFlagged (hpoint : r.point = .isDownloading) (hflag : m.isDownloading r.call.path = false) :
      Advanced r m (.next { r with point := .appendNewDownload }) m
  /-- A job is handed over. -/
  | appended (hpoint : r.point = .appendNewDownload) (info : RucioDownloadInfo)
      (hfile : info.fullCachePath = r.file) :
      Advanced r m (.next { r with point := .setDownloading }) (m.appendNewDownload info)

section Steps

variable {s s' : Session}

theorem advanced_of_readStep {r : Reader} {m m' : Mount} {progress : Progress}
    (h : ReadStep r m progress m') : Advanced r m progress m' := by
  cases h with
  | notCached hpoint hcached => exact .notCached hpoint
  | cached result m' hpoint hcached hread =>
    exact .ended result m' (by simp [hpoint]) (Or.inr (by simp [hpoint])) (pipeline_readFile hread)
  | flagged hpoint hflag => exact .ended _ _ (by simp [hpoint]) (Or.inl hflag) rfl
  | notFlagged hpoint hflag => exact .notFlagged hpoint hflag
  | appended info hpoint hinfo => exact .appended hpoint info (file_of_ofPath hinfo)
  | started hpoint => exact .ended _ _ (by simp [hpoint]) (Or.inr (by simp [hpoint])) rfl

/-- A new read changes neither the pipeline nor what is about to be handed over. -/
theorem step_begins {call : ReadCall} (h : s.step (.begins call) = some s') :
    s'.mount.pipeline = s.mount.pipeline ∧
      (pendingFiles s'.readers).Perm (pendingFiles s.readers) := by
  obtain ⟨checked, rest, -, rfl⟩ := begins_eq_some h
  cases checked with
  | answered result => exact ⟨rfl, List.Perm.refl _⟩
  | file wanted =>
    refine ⟨rfl, ?_⟩
    show (pendingFiles (s.readers ++ [⟨call, wanted, .isCached⟩])).Perm _
    refine (pendingFiles_perm (List.perm_append_singleton _ _)).trans ?_
    rw [pendingFiles_cons_of_ne (by simp)]

/-- A read that goes on is one of the list, and stays there with its next point or leaves. -/
theorem step_continues {k : ℕ} (h : s.step (.continues k) = some s') :
    ∃ r progress m, s.readers[k]? = some r ∧ Advanced r s.mount progress m ∧ s'.mount = m ∧
      s.readers.Perm (r :: s.readers.eraseIdx k) ∧
      match progress with
      | .done _ => s'.readers = s.readers.eraseIdx k
      | .next r' => s'.readers.Perm (r' :: s.readers.eraseIdx k) := by
  obtain ⟨r, progress, m, hr, hread, rfl⟩ := continues_eq_some h
  refine ⟨r, progress, m, hr, advanced_of_readStep hread, mount_settle s k progress m,
    perm_cons_eraseIdx hr, ?_⟩
  · cases progress with
    | done result => rfl
    | next r' => exact set_perm_cons_eraseIdx_of_getElem? hr r'

/-- A step of the background adds no file to the pipeline and leaves the reads alone. -/
theorem step_background {b : Background} (h : s.step (.background b) = some s') :
    s'.mount.pipeline.liveFiles.Subperm s.mount.pipeline.liveFiles ∧ s'.readers = s.readers := by
  obtain ⟨m, hm, rfl⟩ := background_eq_some h
  refine ⟨?_, rfl⟩
  rcases background_cases hm with ⟨-, rest, rfl⟩ | ⟨w, pipeline, -, hwork, rfl⟩
  · exact List.Subperm.refl _
  · exact liveFiles_work hwork

end Steps

/-! ### One job per file -/

/-- A step that hands a job over finds no live job for its file. -/
def AppendsNewFile (s : Session) : SessionAction → Prop
  | .continues k => ∀ r, s.readers[k]? = some r → r.point = .appendNewDownload →
      r.file ∉ s.mount.pipeline.liveFiles
  | _ => True

/-- A read that finds no flag is right to go on: its file has neither a live job nor a read that is
about to hand one over. -/
def PassesRightly (s : Session) : SessionAction → Prop
  | .continues k => ∀ r, s.readers[k]? = some r → r.point = .isDownloading →
      s.mount.isDownloading r.call.path = false → r.file ∉ s.reserved
  | _ => True

section Runs

variable {s s' : Session}

theorem nodup_of_subperm {α : Type*} {l l' : List α} (h : l.Subperm l') (hl : l'.Nodup) :
    l.Nodup := by
  obtain ⟨l'', hperm, hsublist⟩ := h
  exact hperm.nodup_iff.1 (hl.sublist hsublist)

/-- **A step keeps one job per file exactly if it hands no second one over.** -/
theorem oneJobPerFile_step {a : SessionAction} (hs : s.mount.OneJobPerFile)
    (h : s.step a = some s') : s'.mount.OneJobPerFile ↔ AppendsNewFile s a := by
  cases a with
  | begins call =>
    have hsame : s'.mount.OneJobPerFile := by
      rw [Mount.OneJobPerFile, (step_begins h).1]
      exact hs
    exact iff_of_true hsame trivial
  | background b => exact iff_of_true (nodup_of_subperm (step_background h).1 hs) trivial
  | continues k =>
    obtain ⟨r, progress, m, hr, hadvanced, hm, -, -⟩ := step_continues h
    have hcondition : AppendsNewFile s (.continues k) ↔
        (r.point = .appendNewDownload → r.file ∉ s.mount.pipeline.liveFiles) :=
      ⟨fun hg ↦ hg r hr, fun hg r' hr' ↦ Option.some.inj (hr.symm.trans hr') ▸ hg⟩
    rw [hcondition, Mount.OneJobPerFile, hm]
    cases hadvanced with
    | ended result m hpoint hdone hpipeline =>
      rw [hpipeline]
      exact iff_of_true hs fun happend ↦ absurd happend hpoint
    | notCached hpoint => exact iff_of_true hs fun happend ↦ by simp [hpoint] at happend
    | notFlagged hpoint hflag => exact iff_of_true hs fun happend ↦ by simp [hpoint] at happend
    | appended hpoint info hfile =>
      have hfiles : (s.mount.pipeline.append info).liveFiles.Perm _ := liveFiles_append info
      show (s.mount.pipeline.append info).liveFiles.Nodup ↔ _
      rw [hfiles.nodup_iff, hfile, List.nodup_cons]
      exact ⟨fun hnodup _ ↦ hnodup.1, fun hnew ↦ ⟨hnew hpoint, hs⟩⟩

/-- **A step keeps the reserved files distinct exactly if no read passes its check wrongly.** -/
theorem reserved_step {a : SessionAction} (hs : s.reserved.Nodup) (h : s.step a = some s') :
    s'.reserved.Nodup ↔ PassesRightly s a := by
  cases a with
  | begins call =>
    obtain ⟨hpipeline, hpending⟩ := step_begins h
    refine iff_of_true ?_ trivial
    rw [Session.reserved, hpipeline, (hpending.append_right _).nodup_iff]
    exact hs
  | background b =>
    obtain ⟨hfiles, hreaders⟩ := step_background h
    refine iff_of_true ?_ trivial
    rw [Session.reserved, hreaders]
    exact nodup_of_subperm ((List.subperm_append_left _).2 hfiles) hs
  | continues k =>
    obtain ⟨r, progress, m, hr, hadvanced, hm, hout, hin⟩ := step_continues h
    have hcondition : PassesRightly s (.continues k) ↔ (r.point = .isDownloading →
        s.mount.isDownloading r.call.path = false → r.file ∉ s.reserved) :=
      ⟨fun hg ↦ hg r hr, fun hg r' hr' ↦ Option.some.inj (hr.symm.trans hr') ▸ hg⟩
    have hbefore : s.reserved.Perm _ := (pendingFiles_perm hout).append_right _
    rw [hcondition, Session.reserved, hm]
    cases hadvanced with
    | ended result m hpoint hdone hpipeline =>
      rw [pendingFiles_cons_of_ne hpoint] at hbefore
      rw [hpipeline, show s'.readers = _ from hin]
      refine iff_of_true (hbefore.nodup_iff.1 hs) fun hcheck hflag ↦ ?_
      rcases hdone with hflagged | hother
      · rw [hflagged] at hflag
        exact absurd hflag (by decide)
      · exact absurd hcheck hother
    | notCached hpoint =>
      have hafter := (pendingFiles_perm hin).append_right s.mount.pipeline.liveFiles
      rw [pendingFiles_cons_of_ne (by simp)] at hafter
      rw [pendingFiles_cons_of_ne (by simp [hpoint])] at hbefore
      rw [(hafter.trans hbefore.symm).nodup_iff]
      exact iff_of_true hs fun hcheck ↦ by simp [hpoint] at hcheck
    | notFlagged hpoint hflag =>
      have hafter := (pendingFiles_perm hin).append_right s.mount.pipeline.liveFiles
      rw [pendingFiles_cons rfl] at hafter
      rw [pendingFiles_cons_of_ne (by simp [hpoint])] at hbefore
      rw [(hafter.trans (hbefore.symm.cons _)).nodup_iff, List.nodup_cons]
      exact ⟨fun hnodup _ _ ↦ hnodup.1, fun hnew ↦ ⟨hnew hpoint hflag, hs⟩⟩
    | appended hpoint info hfile =>
      have hfiles : (s.mount.appendNewDownload info).pipeline.liveFiles.Perm _ :=
        liveFiles_append info
      have hafter := (pendingFiles_perm hin).append hfiles
      rw [pendingFiles_cons_of_ne (by simp), hfile] at hafter
      rw [pendingFiles_cons hpoint] at hbefore
      -- the file moves from the reads to the jobs
      rw [((hafter.trans List.perm_middle).trans hbefore.symm).nodup_iff]
      exact iff_of_true hs fun hcheck ↦ by simp [hpoint] at hcheck

end Runs

/-- **When no two live jobs write the same file.** Along a run, every state has at most one live job
per file if and only if no read hands a job over for a file that has one. This is the case if every
read that finds no flag is right to go on. -/
theorem one_job_per_file_iff (rest : State) (actions : List SessionAction) :
    (Along Session.step (fun s ↦ s.mount.OneJobPerFile) (Session.start rest) actions ↔
        StepsMeet Session.step AppendsNewFile (Session.start rest) actions) ∧
      (StepsMeet Session.step PassesRightly (Session.start rest) actions →
        StepsMeet Session.step AppendsNewFile (Session.start rest) actions) := by
  have hstart : (Session.start rest).reserved.Nodup := List.nodup_nil
  have hiff := @along_iff_stepsMeet _ _ Session.step (fun _ ↦ True)
    (fun s ↦ s.mount.OneJobPerFile) AppendsNewFile
    (fun s a s' _ hs h ↦ ⟨trivial, oneJobPerFile_step hs h⟩) actions (Session.start rest) trivial
    hstart
  refine ⟨hiff, fun hpasses ↦ hiff.1 ?_⟩
  have hreserved := (@along_iff_stepsMeet _ _ Session.step (fun _ ↦ True)
    (fun s ↦ s.reserved.Nodup) PassesRightly
    (fun s a s' _ hs h ↦ ⟨trivial, reserved_step hs h⟩) actions _ trivial hstart).2 hpasses
  exact along_mono (fun s hs ↦ (List.nodup_append.1 hs).2.1) hreserved

/-- A read of another path to the file of `sampleRead`, through a container. -/
def sampleAliasRead : ReadCall :=
  { sampleRead with path := ['/', 's', '/', 'u', '/', 'c', '/', 'n'] }

/-- One read after the other, of two paths to one file. -/
def aliasRun : List SessionAction :=
  [.begins sampleRead, .continues 0, .continues 0, .continues 0, .continues 0,
    .begins sampleAliasRead, .continues 0, .continues 0, .continues 0]

/-- Two reads of one path, each of which looks for the flag before the other sets it. -/
def raceRun : List SessionAction :=
  [.begins sampleRead, .begins sampleRead, .continues 0, .continues 0, .continues 1, .continues 1,
    .continues 0, .continues 1]

/-- Two live jobs for the file of the DID `u:n`: of the paths `/s/u/n` and `/s/u/c/n`, read one
after the other, and of the path `/s/u/n`, read twice at the same time. -/
theorem two_jobs_one_file :
    (∃ s, exec Session.step ⟨sampleMount, []⟩ aliasRun = some s ∧ ¬ s.mount.OneJobPerFile) ∧
      ∃ s, exec Session.step ⟨sampleMount, []⟩ raceRun = some s ∧ ¬ s.mount.OneJobPerFile := by
  have haliased : (exec Session.step ⟨sampleMount, []⟩ aliasRun).any
      (fun s ↦ decide (¬ s.mount.OneJobPerFile)) = true := by decide +kernel
  have hraced : (exec Session.step ⟨sampleMount, []⟩ raceRun).any
      (fun s ↦ decide (¬ s.mount.OneJobPerFile)) = true := by decide +kernel
  simpa only [Option.any_eq_true, decide_eq_true_eq] using And.intro haliased hraced

/-- **Without interruptions a second job comes from a second path.** If reads are atomic and
one hands a job over, then every job that is live at that moment is for another path, which has
a flag. -/
theorem second_job_from_alias {rest : State} {actions : List MountAction} {m m' : Mount}
    (hrun : exec Mount.step (Mount.start rest) actions = some m) {call : ReadCall} {buffer : Str}
    (hread : call.run m = .ok ((-eAGAIN, buffer), m')) {job : Job} (hjob : job ∈ m.pipeline.live) :
    ∃ path, path ≠ call.path ∧ m.isDownloading path = true ∧ job.info.IsFor path := by
  have hflag : m.isDownloading call.path = false := by
    have hout : ReadOutcome call m (-eAGAIN) m' := readOutcome_of_run hread
    cases hout with
    | answered rest result h => exact absurd h (by decide)
    | started rest wanted info hflag hwanted hinfo => exact hflag
    | cached wanted result m' hwanted h =>
      rw [isCached_eq_false hrun] at h
      exact absurd h (by decide)
  obtain ⟨path, hpath, hpathFor⟩ := (backed_run hrun).flagged _ (List.mem_map_of_mem hjob)
  refine ⟨path, ?_, hpath, hpathFor⟩
  rintro rfl
  rw [hflag] at hpath
  exact absurd hpath (by decide)

end FusePosix
