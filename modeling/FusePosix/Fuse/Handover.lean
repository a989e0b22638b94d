import FusePosix.Download.Live
import FusePosix.Fuse.Session

/-!
# What becomes of a finished download

`rucio_read` relies on two tables that somebody else would have to keep up to date when a download
ends: `rucioDownloadCache`, where it looks for the file, and `downloadingStatusCache`, where it
looks for a download in progress. The download pipeline touches neither. So a file that has been
downloaded never becomes readable (`delivered_file_never_readable`), and a flag that has been set
stays for ever (`flagged_for_ever`), however the download has ended.

What the flag is meant to say, that a download for the path is under way, therefore stays true only
as long as no live job leaves `toDownload` and the downloaders without another one for the same DID
remaining there. `flags_mirror_jobs_iff` makes this an equivalence over whole runs. A second job for
the same DID comes from a second path to it.
-/

namespace FusePosix

open Transition

/-! ### Jobs for a path -/

/-- Whether an order is for the DID at a path. -/
def RucioDownloadInfo.IsFor (info : RucioDownloadInfo) (path : Str) : Prop :=
  info.fserverName = extractServerName path ∧ getDid path = .ok info.fdid

instance (info : RucioDownloadInfo) (path : Str) : Decidable (info.IsFor path) :=
  inferInstanceAs (Decidable (_ ∧ _))

/-- The job that is built for a path is for that path. -/
theorem isFor_of_ofPath {servers : ServerMap} {did path username : Str} {info : RucioDownloadInfo}
    (hdid : getDid path = .ok did)
    (h : RucioDownloadInfo.ofPath servers did path username = .ok info) : info.IsFor path := by
  obtain ⟨config, -, h⟩ := bind_eq_ok.1 h
  obtain rfl := Except.ok.inj h
  exact ⟨rfl, hdid⟩

/-- A job for the path has been handed over as downloaded. -/
def Mount.Delivered (m : Mount) (path : Str) : Prop :=
  ∃ job ∈ m.pipeline.downloaded ++ m.pipeline.notifiers.map Held.job ++ m.pipeline.notified,
    job.info.IsFor path ∧ job.info.fdownloaded = true

instance (m : Mount) (path : Str) : Decidable (m.Delivered path) :=
  inferInstanceAs (Decidable (∃ job ∈ _, _ ∧ _))

/-! ### Delivered files -/

section Delivered

/-- A path with a job has a place for its local copy. -/
theorem exists_wantedOf {path did : Str} (h : getDid path = .ok did) :
    ∃ wanted, wantedOf path = .ok wanted := by
  have hdid := h
  obtain ⟨scope, hscope, h⟩ := bind_eq_ok.1 h
  obtain ⟨name, hname, -⟩ := bind_eq_ok.1 h
  refine ⟨⟨path, did, rucioCachePath ++ ['/'] ++ extractServerName path ++ ['/'] ++ scope ++
    ['/'] ++ name⟩, ?_⟩
  rw [wantedOf, hdid, ok_bind, hscope, ok_bind, hname, ok_bind, pure_eq_ok]

/-- **A delivered file is never readable.** In every state the program can reach, however its reads
interrupt each other, and for every path whose file has been delivered: the file is not in the
cache, and every further read of the path, by whatever user, is answered by an error. -/
theorem delivered_file_never_readable {rest : State} {actions : List SessionAction} {s : Session}
    (hrun : exec Session.step (Session.start rest) actions = some s) {path : Str}
    (hdelivered : s.mount.Delivered path) :
    ∃ wanted, wantedOf path = .ok wanted ∧ s.mount.isCached wanted.cachePath = false ∧
      ∀ call : ReadCall, call.path = path → ∀ r m', call.run s.mount = .ok (r, m') →
        r.1 < 0 ∧ (r.1 = -eACCES ∨ r.1 = -1 ∨ r.1 = -eAGAIN ∨ r.1 = -eINPROGRESS) := by
  obtain ⟨job, -, ⟨-, hdid⟩, -⟩ := hdelivered
  obtain ⟨wanted, hwanted⟩ := exists_wantedOf hdid
  refine ⟨wanted, hwanted, session_isCached_eq_false hrun _, fun call _ r m' hcall ↦ ?_⟩
  have hanswer : r.1 = -eACCES ∨ r.1 = -1 ∨ r.1 = -eAGAIN ∨ r.1 = -eINPROGRESS := by
    obtain ⟨result, buffer⟩ := r
    have hout : ReadOutcome call s.mount result m' := readOutcome_of_run hcall
    cases hout with
    | answered rest result h => exact h.elim Or.inl fun h ↦ Or.inr (Or.inl h)
    | inProgress rest h => exact Or.inr (Or.inr (Or.inr rfl))
    | started rest wanted info hflag hwanted hinfo => exact Or.inr (Or.inr (Or.inl rfl))
    | cached wanted result m' hwanted h =>
      rw [session_isCached_eq_false hrun] at h
      exact absurd h (by decide)
  refine ⟨?_, hanswer⟩
  rcases hanswer with h | h | h | h <;> rw [h] <;> decide

/-- The first downloader's work on the job in front: it takes it, makes one pass, lets it go. -/
def downloaderRound (a : Attempt) : List MountAction :=
  [.background (.work (.downloaderGet 0)), .background (.work (.downloaderProcess 0 a)),
    .background (.work (.downloaderHandle 0))]

/-- A read that starts a download, and the download. -/
def deliveryRun : List MountAction := .read sampleRead :: downloaderRound sampleAttempt

/-- The mount behind the download. -/
def deliveredMount : Mount := (exec Mount.step sampleMount deliveryRun).getD sampleMount

theorem exec_deliveryRun : exec Mount.step sampleMount deliveryRun = some deliveredMount :=
  (Option.getD_of_ne_none (Option.isSome_iff_ne_none.1 (by decide +kernel)) _).symm

/-- The file at `/s/u/n` has been delivered, and cannot be read. -/
theorem delivered_file_never_readable_sample :
    deliveredMount.Delivered sampleRead.path ∧
      ∃ wanted, wantedOf sampleRead.path = .ok wanted ∧
        deliveredMount.isCached wanted.cachePath = false ∧
        ∀ call : ReadCall, call.path = sampleRead.path → ∀ r m',
          call.run deliveredMount = .ok (r, m') →
          r.1 < 0 ∧ (r.1 = -eACCES ∨ r.1 = -1 ∨ r.1 = -eAGAIN ∨ r.1 = -eINPROGRESS) := by
  have hdelivered : deliveredMount.Delivered sampleRead.path := by decide +kernel
  obtain ⟨fine, hfine⟩ := exists_exec_session exec_deliveryRun
  exact ⟨hdelivered, delivered_file_never_readable (s := ⟨deliveredMount, []⟩) hfine hdelivered⟩

/-- A user with a valid token reads `/s/u/n`, the download succeeds at the first attempt, and the
user reads the path again: the job is in `downloaded`, the file is not in the cache, and the answer
is `-EINPROGRESS`. -/
theorem delivered_file_in_progress :
    ∃ m, exec Mount.step sampleMount deliveryRun = some m ∧ m.Delivered sampleRead.path ∧
      (rucioIsTokenValid sampleIo ['s'] sampleCaller.uid m.rest).1 = true ∧
      (wantedOf sampleRead.path).toOption.map (fun wanted ↦ m.isCached wanted.cachePath) =
        some false ∧
      (sampleRead.run m).toOption.map (fun result ↦ result.1.1) = some (-eINPROGRESS) := by
  refine ⟨deliveredMount, exec_deliveryRun, ?_, ?_, ?_, ?_⟩ <;> decide +kernel

end Delivered

/-! ### Flags and live jobs -/

/-- **What a flag is meant to say**: some job for the path is live. -/
def Mount.FlagsMirrorJobs (m : Mount) : Prop :=
  ∀ path, m.isDownloading path = true → ∃ job ∈ m.pipeline.live, job.info.IsFor path

/-- A step that hands a job over leaves another live job for the same server and DID. -/
def LeavesAnother (m : Mount) : MountAction → Prop
  | .background (.work w) => ∀ job, m.pipeline.handsOver w = some job →
      ∃ other ∈ m.pipeline.live.erase job,
        other.info.fserverName = job.info.fserverName ∧ other.info.fdid = job.info.fdid
  | _ => True

/-- No file is cached, and every live job is for a path that has a flag. -/
structure Backed (m : Mount) : Prop where
  empty : m.rucioDownloadCache = Table.empty
  flagged : ∀ order ∈ m.pipeline.liveOrders, ∃ path, m.isDownloading path = true ∧ order.IsFor path

section Mirror

variable {m m' : Mount} {p q : Pipeline}

theorem exists_live_iff (path : Str) : (∃ job ∈ p.live, job.info.IsFor path) ↔
    ∃ order ∈ p.liveOrders, order.IsFor path := by
  constructor
  · rintro ⟨job, hjob, hfor⟩
    exact ⟨job.info.order, List.mem_map_of_mem hjob, hfor⟩
  · rintro ⟨order, horder, hfor⟩
    obtain ⟨job, hjob, rfl⟩ := List.mem_map.1 horder
    exact ⟨job, hjob, hfor⟩

theorem liveOrders_append (info : RucioDownloadInfo) :
    (p.append info).liveOrders.Perm (info.order :: p.liveOrders) := by
  have hlive : (p.append info).live.Perm (⟨p.nextId, info⟩ :: p.live) := live_append info
  exact hlive.map fun job ↦ job.info.order

/-- **A read keeps what the flags say and what backs them.** -/
theorem backed_read {call : ReadCall} (hb : Backed m)
    (h : m.step (.read call) = some m') :
    Backed m' ∧ (m.FlagsMirrorJobs → m'.FlagsMirrorJobs) := by
  obtain ⟨⟨⟨result, buffer⟩, m₁⟩, hrun, rfl⟩ := map_toOption_eq_some h
  have hout : ReadOutcome call m result m₁ := readOutcome_of_run hrun
  cases hout with
  | answered rest result h => exact ⟨⟨hb.empty, hb.flagged⟩, fun hm ↦ hm⟩
  | inProgress rest h => exact ⟨⟨hb.empty, hb.flagged⟩, fun hm ↦ hm⟩
  | started rest wanted info hflag hwanted hinfo =>
    have hinfoFor : info.IsFor call.path := isFor_of_ofPath (wantedOf_eq_ok hwanted).2 hinfo
    have hfor : info.order.IsFor call.path := hinfoFor
    have horders : (m.pipeline.append info).liveOrders.Perm _ := liveOrders_append info
    refine ⟨⟨hb.empty, fun order horder ↦ ?_⟩, fun hm path hpath ↦ ?_⟩
    · rcases List.mem_cons.1 (horders.mem_iff.1 horder) with rfl | horder
      · exact ⟨call.path, by simp [isDownloading_started], hfor⟩
      · obtain ⟨path, hpath, hpathFor⟩ := hb.flagged order horder
        refine ⟨path, ?_, hpathFor⟩
        rw [isDownloading_started, Bool.or_eq_true]
        exact Or.inr hpath
    · rw [isDownloading_started, Bool.or_eq_true, decide_eq_true_iff] at hpath
      refine (exists_live_iff path).2 ?_
      rcases hpath with rfl | hpath
      · exact ⟨info.order, horders.mem_iff.2 (by simp), hfor⟩
      · obtain ⟨order, horder, hpathFor⟩ := (exists_live_iff path).1 (hm path hpath)
        exact ⟨order, horders.mem_iff.2 (List.mem_cons_of_mem _ horder), hpathFor⟩
  | cached wanted result m' hwanted h =>
    rw [Mount.isCached, hb.empty, Table.contains_empty] at h
    exact absurd h (by decide)

/-- **A worker's step keeps what backs the flags, and what they say exactly if it leaves another
job.** -/
theorem backed_work {w : WorkerAction} (hb : Backed m)
    (h : m.pipeline.work m.rest.servers w = some p) :
    Backed { m with pipeline := p } ∧ (m.FlagsMirrorJobs →
      (Mount.FlagsMirrorJobs { m with pipeline := p } ↔
        LeavesAnother m (.background (.work w)))) := by
  rcases live_work h with ⟨hnone, horders⟩ | ⟨job, hsome, hlive⟩
  · refine ⟨⟨hb.empty, fun order horder ↦ hb.flagged order (horders.mem_iff.1 horder)⟩,
      fun hm ↦ iff_of_true (fun path hpath ↦ (exists_live_iff path).2 ?_) ?_⟩
    · obtain ⟨order, horder, hfor⟩ := (exists_live_iff path).1 (hm path hpath)
      exact ⟨order, horders.mem_iff.2 horder, hfor⟩
    · intro job hjob
      rw [hnone] at hjob
      exact absurd hjob (by simp)
  · have hmem : job ∈ m.pipeline.live := hlive.mem_iff.2 (by simp)
    have herase : (m.pipeline.live.erase job).Perm p.live :=
      (List.perm_cons job).1 ((List.perm_cons_erase hmem).symm.trans hlive)
    refine ⟨⟨hb.empty, fun order horder ↦ hb.flagged order ?_⟩,
      fun hm ↦ ⟨fun hq ↦ ?_, fun hg path hpath ↦ ?_⟩⟩
    · obtain ⟨other, hother, rfl⟩ := List.mem_map.1 horder
      exact List.mem_map_of_mem (hlive.mem_iff.2 (List.mem_cons_of_mem _ hother))
    · intro job' hjob'
      obtain rfl : job = job' := Option.some.inj (hsome.symm.trans hjob')
      -- the job that leaves is for some flagged path, which needs another job now
      obtain ⟨path, hpath, hname, hdid⟩ := hb.flagged _ (List.mem_map_of_mem hmem)
      obtain ⟨other, hother, hname', hdid'⟩ := hq path hpath
      refine ⟨other, herase.mem_iff.2 hother, hname'.trans hname.symm, ?_⟩
      exact Except.ok.inj (hdid'.symm.trans hdid)
    · obtain ⟨other, hother, hname, hdid⟩ := hm path hpath
      rcases List.mem_cons.1 (hlive.mem_iff.1 hother) with rfl | hother
      · obtain ⟨third, hthird, hname', hdid'⟩ := hg other hsome
        exact ⟨third, herase.mem_iff.1 hthird, hname'.trans hname, by rw [hdid', hdid]⟩
      · exact ⟨other, hother, hname, hdid⟩

/-- What backs the flags survives every step. -/
theorem backed_step {a : MountAction} (hb : Backed m) (h : m.step a = some m') :
    Backed m' ∧ (m.FlagsMirrorJobs → (m'.FlagsMirrorJobs ↔ LeavesAnother m a)) := by
  cases a with
  | read call =>
    obtain ⟨hb', hm'⟩ := backed_read hb h
    exact ⟨hb', fun hm ↦ iff_of_true (hm' hm) trivial⟩
  | background b =>
    rcases background_cases h with ⟨hother, rest, rfl⟩ | ⟨w, pipeline, rfl, hwork, rfl⟩
    · refine ⟨⟨hb.empty, hb.flagged⟩, fun hm ↦ iff_of_true hm ?_⟩
      cases b with
      | work w => exact absurd rfl (hother w)
      | getattr | readdir | loginEnds => exact trivial
    · exact backed_work hb hwork

theorem backed_start (rest : State) : Backed (Mount.start rest) :=
  ⟨rfl, fun order horder ↦ by simp [Mount.start, Pipeline.liveOrders, Pipeline.live] at horder⟩

/-- **Every live job is for a flagged path**, in every state that can be reached. -/
theorem backed_run {rest : State} {actions : List MountAction}
    (hrun : exec Mount.step (Mount.start rest) actions = some m) : Backed m := by
  refine @run_induction _ _ Mount.step (Mount.start rest) (fun _ ↦ True) (fun _ m ↦ Backed m)
    (backed_start rest) ?_ actions (fun _ _ ↦ trivial) m hrun
  intro as a s t hb _ hstep
  exact (backed_step hb hstep).1

end Mirror

/-- **The flags mirror the live jobs as long as no last one leaves.** In a run from the start, every
state has a live job for every flagged path if and only if every step of the run that hands a job
over leaves another live job for the same server and DID. -/
theorem flags_mirror_jobs_iff (rest : State) (actions : List MountAction) :
    Along Mount.step Mount.FlagsMirrorJobs (Mount.start rest) actions ↔
      StepsMeet Mount.step LeavesAnother (Mount.start rest) actions := by
  refine along_iff_stepsMeet (fun m a m' hb hm h ↦ ?_) actions _ (backed_start rest) ?_
  · obtain ⟨hb', hiff⟩ := backed_step hb h
    exact ⟨hb', hiff hm⟩
  · intro path hpath
    simp [Mount.start, Mount.isDownloading] at hpath

/-- A user reads `/s/u/n` and the file is delivered: the path has its flag, no job is live, and the
answer to the next read is `-EINPROGRESS`. -/
theorem flag_without_job :
    ∃ m, exec Mount.step sampleMount deliveryRun = some m ∧
      m.isDownloading sampleRead.path = true ∧ m.pipeline.live = [] ∧
      m.pipeline.downloaded.map (fun job ↦ job.info.fdownloaded) = [true] ∧
      ¬ m.FlagsMirrorJobs ∧
      (sampleRead.run m).toOption.map (fun result ↦ result.1.1) = some (-eINPROGRESS) := by
  have hflag : deliveredMount.isDownloading sampleRead.path = true := by decide +kernel
  have hlive : deliveredMount.pipeline.live = [] := by decide +kernel
  refine ⟨deliveredMount, exec_deliveryRun, hflag, hlive, by decide +kernel, fun hmirror ↦ ?_,
    by decide +kernel⟩
  obtain ⟨job, hjob, -⟩ := hmirror _ hflag
  rw [hlive] at hjob
  exact absurd hjob (by simp)

/-- **A flag stays for ever**, so a path that has been read once is never downloaded again. -/
theorem flagged_for_ever {rest : State} {actions later : List MountAction} {m m' : Mount}
    (hrun : exec Mount.step (Mount.start rest) actions = some m)
    (hlater : exec Mount.step m later = some m') {path : Str}
    (hflag : m.isDownloading path = true) :
    m'.isDownloading path = true ∧ ∀ call : ReadCall, call.path = path → ∀ r m'',
      call.run m' = .ok (r, m'') → r.1 ≠ -eAGAIN := by
  have hempty : (Mount.start rest).rucioDownloadCache = Table.empty := rfl
  obtain ⟨hempty', hkeep⟩ := tables_run (tables_run hempty hrun).1 hlater
  refine ⟨hkeep path hflag, ?_⟩
  rintro call rfl ⟨result, buffer⟩ m'' hcall
  have hout : ReadOutcome call m' result m'' := readOutcome_of_run hcall
  cases hout with
  | answered rest result h =>
    show result ≠ -eAGAIN
    rcases h with rfl | rfl <;> decide
  | inProgress rest h =>
    show (-eINPROGRESS : ℤ) ≠ -eAGAIN
    decide
  | started rest wanted info hflag' hwanted hinfo =>
    rw [hkeep _ hflag] at hflag'
    exact absurd hflag' (by decide)
  | cached wanted result m'' hwanted h =>
    rw [Mount.isCached, hempty', Table.contains_empty] at h
    exact absurd h (by decide)

end FusePosix
