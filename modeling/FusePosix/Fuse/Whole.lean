import FusePosix.Download.Conservation
import FusePosix.Fuse.Reach

/-!
# The pipeline of the running system

The conservation of jobs is a statement about the pipeline by itself: one registry of servers, and
fresh jobs of loaded servers from outside. In the running system the registry changes between the
steps of the workers, since callbacks and logins store tokens, and the jobs come from the reads that
are under way.

The two fit together because nothing changes the settings of a server (`SameSettings`), and a worker
looks at nothing else (`work_congr`). So the pipeline behind every run of the fine system is the
pipeline behind a run of its own (`follows_run`), and what has been proved about those holds in the
running system: jobs are conserved (`conserved_of_session`), and no worker is ever stuck
(`session_worker_never_stuck`).
-/

namespace FusePosix

open Transition

/-! ### What callbacks keep -/

/-- **The settings of the servers are kept.** -/
theorem kept_settings (servers : ServerMap) :
    Kept (fun _ _ _ ↦ True) fun s ↦ SameSettings servers s.servers where
  quiet hq h := h.trans hq.settings
  remainder _ h := h
  used _ _ h := h
  stores hstores _ h := by rwa [hstores.servers]

section Kept

variable {P : State → Prop} {s t : State}

theorem kept_run (hP : Kept (fun _ _ _ ↦ True) P) {call : RestCall} {answer : Answer} (h : P s)
    (hrun : call.run s = .ok (answer, t)) : P t := by
  obtain ⟨io, caller, query⟩ := call
  cases RestCall.runs_of_eq_ok hrun with
  | scopes hcall => exact kept_rucioListScopes hP trivial h hcall
  | dids hcall => exact kept_rucioListDids hP trivial (fun _ _ ↦ ⟨trivial, trivial⟩) h hcall
  | containerDids hcall =>
    exact kept_rucioListContainerDids hP trivial (fun _ _ ↦ ⟨trivial, trivial⟩) h hcall
  | isContainer hcall => exact kept_rucioIsContainer hP (fun _ _ ↦ ⟨trivial, trivial⟩) h hcall
  | size hcall =>
    exact kept_rucioGetSize hP (fun _ _ ↦ trivial) h hcall

/-- **Whatever survives the steps of the REST client under any keys survives the callbacks.** -/
theorem kept_clientSteps (hP : Kept (fun _ _ _ ↦ True) P) (h : P s) (hsteps : ClientSteps s t) :
    P t := by
  induction hsteps with
  | refl => exact h
  | tail _ hstep ih =>
    rcases hstep with hcall | hquiet
    · exact kept_run hP ih hcall
    · exact hP.quiet hquiet ih

end Kept

/-! ### What workers look at -/

section Settings

variable {servers servers' : ServerMap} {m m' : Mount}

/-- **A worker's step depends on the settings of the servers only.** -/
theorem work_congr (h : SameSettings servers servers') (p : Pipeline) (w : WorkerAction) :
    p.work servers' w = p.work servers w := by
  cases w with
  | downloaderProcess k a =>
    have hpass : ∀ info : RucioDownloadInfo,
        downloaderProcessInput servers' a info = downloaderProcessInput servers a info := by
      intro info
      simp only [downloaderProcessInput, rucioDownloadWrapper, h.serverExists]
    simp only [Pipeline.work, Pipeline.downloaderProcess, hpass]
  | downloaderGet i | downloaderHandle k | notifierGet i | notifierProcess k
  | notifierHandle k => rfl

theorem fresh_of_sameSettings (h : SameSettings servers servers') {info : RucioDownloadInfo}
    (hinfo : info.Fresh servers') : info.Fresh servers where
  server := h.serverExists info.fserverName ▸ hinfo.server
  config := hinfo.config
  folder := hinfo.folder
  pos := hinfo.pos
  code := hinfo.code
  attempt := hinfo.attempt
  notDownloaded := hinfo.notDownloaded

/-! ### The pipeline behind a step -/

/-- The settings are those of `servers`, and the pipeline has gone from one mount to the other in a
run of its own in which only fresh jobs were appended. -/
structure Follows (servers : ServerMap) (m m' : Mount) : Prop where
  settings : SameSettings servers m'.rest.servers
  pipeline : ∃ actions, (∀ a ∈ actions, PipelineAction.Admissible servers a) ∧
    exec (Pipeline.step servers) m.pipeline actions = some m'.pipeline

/-- The pipeline has made no step. -/
theorem follows_of_eq (h : SameSettings servers m'.rest.servers) (hp : m'.pipeline = m.pipeline) :
    Follows servers m m' :=
  ⟨h, [], by simp, by rw [hp, exec_nil]⟩

/-- The pipeline has made one step. -/
theorem follows_of_step (h : SameSettings servers m'.rest.servers) {a : PipelineAction}
    (ha : a.Admissible servers) (hp : m.pipeline.step servers a = some m'.pipeline) :
    Follows servers m m' := by
  refine ⟨h, [a], by simpa using ha, ?_⟩
  rw [exec_cons, hp, Option.bind_some, exec_nil]

theorem Follows.trans {m'' : Mount} (h : Follows servers m m') (h' : Follows servers m' m'') :
    Follows servers m m'' := by
  obtain ⟨earlier, hearlier, hfirst⟩ := h.pipeline
  obtain ⟨later, hlater, hsecond⟩ := h'.pipeline
  refine ⟨h'.settings, earlier ++ later, fun a ha ↦ ?_, ?_⟩
  · exact (List.mem_append.1 ha).elim (hearlier a) (hlater a)
  · rw [exec_append, hfirst, Option.bind_some, hsecond]

/-- What happens besides the reads. -/
theorem follows_background {b : Background} (hm : SameSettings servers m.rest.servers)
    (h : m.background b = some m') : Follows servers m m' := by
  have hkept := kept_settings servers
  cases b with
  | getattr io path caller st =>
    obtain ⟨⟨r, m₁⟩, hrun, rfl⟩ := map_toOption_eq_some h
    obtain ⟨rest, rfl⟩ := rucioGetattr_eq_ok hrun
    exact follows_of_eq (kept_clientSteps hkept hm (clientSteps_getattr hrun)) rfl
  | readdir io path caller =>
    obtain ⟨⟨r, m₁⟩, hrun, rfl⟩ := map_toOption_eq_some h
    obtain ⟨rest, rfl⟩ := rucioReaddir_eq_ok hrun
    exact follows_of_eq (kept_clientSteps hkept hm (clientSteps_readdir hrun)) rfl
  | work w =>
    obtain ⟨pipeline, hwork, rfl⟩ := Option.map_eq_some_iff.1 h
    rw [work_congr hm] at hwork
    exact follows_of_step (a := .work w) hm trivial hwork
  | loginEnds io k =>
    obtain ⟨rest, hrest, rfl⟩ := map_toOption_eq_some h
    exact follows_of_eq (hm.trans (quiet_oidcLoginEnds hrest).settings) rfl

/-- A read under way. Only the job it hands over matters to the pipeline. -/
theorem follows_readStep {r : Reader} {progress : Progress}
    (hm : SameSettings servers m.rest.servers) (h : ReadStep r m progress m') :
    Follows servers m m' := by
  cases h with
  | cached result m' hpoint hcached hread =>
    exact follows_of_eq (kept_clientSteps (kept_settings servers) hm (clientSteps_readFile hread))
      (pipeline_readFile hread)
  | appended info hpoint hinfo =>
    have hfresh : info.Fresh servers := fresh_of_sameSettings hm (fresh_of_ofPath hinfo)
    exact follows_of_step (a := .append info) hm hfresh rfl
  | notCached | flagged | notFlagged | started => exact follows_of_eq hm rfl

/-- **A step of the running system.** -/
theorem follows_step {s s' : Session} {a : SessionAction}
    (hs : SameSettings servers s.mount.rest.servers) (h : s.step a = some s') :
    Follows servers s.mount s'.mount := by
  cases a with
  | begins call =>
    obtain ⟨checked, rest, hchecks, rfl⟩ := begins_eq_some h
    rw [mount_enter]
    exact follows_of_eq (kept_clientSteps (kept_settings servers) hs
      (checksEnd_of_eq_ok hchecks).clientSteps) rfl
  | continues k =>
    obtain ⟨r, progress, m, -, hread, rfl⟩ := continues_eq_some h
    rw [mount_settle]
    exact follows_readStep hs hread
  | background b =>
    obtain ⟨m, hm, rfl⟩ := background_eq_some h
    exact follows_background hs hm

end Settings

/-! ### Every run -/

section Runs

variable {rest : State} {actions : List SessionAction} {s : Session}

/-- **The pipeline of the running system makes a run of its own.** -/
theorem follows_run (hrun : exec Session.step (Session.start rest) actions = some s) :
    Follows rest.servers (Mount.start rest) s.mount := by
  refine @run_induction _ _ Session.step (Session.start rest) (fun _ ↦ True)
    (fun _ s ↦ Follows rest.servers (Mount.start rest) s.mount)
    (follows_of_eq (sameSettings_refl _) rfl) ?_ actions (fun _ _ ↦ trivial) s hrun
  intro as a s t hs _ hstep
  exact hs.trans (follows_step hs.settings hstep)

/-- **Jobs are conserved in the running system**, whatever its users do and however their reads
interfere with each other and with the workers. -/
theorem conserved_of_session (hrun : exec Session.step (Session.start rest) actions = some s) :
    ∃ orders, (∀ info ∈ orders, info.Fresh rest.servers) ∧
      orders.length = s.mount.pipeline.nextId ∧ Conserved orders s.mount.pipeline := by
  obtain ⟨as, hadmissible, hpipeline⟩ := (follows_run hrun).pipeline
  have hinv := conserving_of_run hadmissible hpipeline
  have hfresh : ∀ info ∈ appended as, info.Fresh rest.servers :=
    fun info hinfo ↦ fresh_of_mem_appended hadmissible hinfo
  exact ⟨appended as, hfresh, hinv.nextId.symm, map_order_of_fresh hfresh ▸ hinv.conserved⟩

/-- **No worker of the running system is ever stuck**: whatever it holds, its next step is
enabled. -/
theorem session_worker_never_stuck
    (hrun : exec Session.step (Session.start rest) actions = some s) (k : ℕ) :
    (∀ job, s.mount.pipeline.downloaders[k]? = some (.input job) →
      ∀ a, (s.step (.background (.work (.downloaderProcess k a)))).isSome) ∧
    (∀ job, s.mount.pipeline.downloaders[k]? = some (.output job) →
      (s.step (.background (.work (.downloaderHandle k)))).isSome) ∧
    (∀ job, s.mount.pipeline.notifiers[k]? = some (.input job) →
      (s.step (.background (.work (.notifierProcess k)))).isSome) ∧
    (∀ job, s.mount.pipeline.notifiers[k]? = some (.output job) →
      (s.step (.background (.work (.notifierHandle k)))).isSome) := by
  have hfollows := follows_run hrun
  obtain ⟨as, hadmissible, hpipeline⟩ := hfollows.pipeline
  have henabled : ∀ w, (s.mount.pipeline.work rest.servers w).isSome →
      (s.step (.background (.work w))).isSome := by
    intro w hw
    rw [← work_congr hfollows.settings] at hw
    show (Option.map _ (Option.map _ _)).isSome = true
    rwa [Option.isSome_map, Option.isSome_map]
  obtain ⟨hprocess, hhandle, hprint, hnotify⟩ := worker_never_stuck hadmissible hpipeline k
  exact ⟨fun job hk a ↦ henabled _ (hprocess job hk a), fun job hk ↦ henabled _ (hhandle job hk),
    fun job hk ↦ henabled _ (hprint job hk), fun job hk ↦ henabled _ (hnotify job hk)⟩

end Runs

end FusePosix
