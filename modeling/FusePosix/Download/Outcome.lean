import FusePosix.Download.Drain

/-!
# What becomes of a download

A job alone in the world would be simple: attempt after attempt until the file is there, and after
`maxAttempts` of them the job is given up (`RucioDownloadInfo.alone`). In the pipeline the attempts
of one job are passes of different workers, with the passes over other jobs between them, and the
queues need not keep the order of the jobs.

None of this decides what becomes of a job. If the answers of the world are foreseen, attempt by
attempt for each job, then every schedule of the workers gives every job the outcome it would have
had alone (`pipeline_outcome`).

The loop goes on behind an attempt that has not got the file only if `fclose` returns from a null
pointer. Where it does not, the process ends with that attempt, and what is said here is about the
runs up to it.
-/

namespace FusePosix

open Transition

/-! ### A job alone -/

/-- The retry loop over a job with so many attempts left. `opens` says for every attempt whether the
file can be opened behind it. -/
def RucioDownloadInfo.retried (opens : ℕ → Bool) : ℕ → RucioDownloadInfo → RucioDownloadInfo
  | 0, info => info.givenUp
  | left + 1, info =>
    if opens info.fattempt then info.attempted true
    else RucioDownloadInfo.retried opens left (info.attempted false)

/-- What becomes of a job that waits, without any other jobs. -/
def RucioDownloadInfo.alone (opens : ℕ → Bool) (info : RucioDownloadInfo) : RucioDownloadInfo :=
  info.retried opens (maxAttempts - info.fattempt)

section Alone

variable {opens : ℕ → Bool} {info : RucioDownloadInfo}

theorem alone_of_lt (h : info.fattempt < maxAttempts) :
    info.alone opens =
      if opens info.fattempt then info.attempted true else (info.attempted false).alone opens := by
  have hleft : maxAttempts - info.fattempt = (maxAttempts - (info.fattempt + 1)) + 1 := by omega
  rw [RucioDownloadInfo.alone, hleft]
  rfl

theorem alone_of_le (h : maxAttempts ≤ info.fattempt) : info.alone opens = info.givenUp := by
  rw [RucioDownloadInfo.alone, Nat.sub_eq_zero_of_le h]
  rfl

/-- The loop downloads the file if one of the attempts that are left does. -/
theorem fdownloaded_retried_iff (left : ℕ) : ∀ info : RucioDownloadInfo,
    (info.retried opens left).fdownloaded = true ↔
      ∃ n < left, opens (info.fattempt + n) = true := by
  induction left with
  | zero =>
    intro info
    refine iff_of_false Bool.false_ne_true ?_
    rintro ⟨n, hn, -⟩
    exact Nat.not_lt_zero n hn
  | succ left ih =>
    intro info
    rw [RucioDownloadInfo.retried]
    split_ifs with hopens
    · exact iff_of_true rfl ⟨0, Nat.succ_pos left, hopens⟩
    · rw [ih]
      constructor
      · rintro ⟨n, hn, hn'⟩
        refine ⟨n + 1, Nat.succ_lt_succ hn, ?_⟩
        rwa [Nat.add_comm n 1, ← Nat.add_assoc]
      · rintro ⟨n, hn, hn'⟩
        rcases n with - | n
        · exact absurd hn' hopens
        · refine ⟨n, Nat.lt_of_succ_lt_succ hn, ?_⟩
          rwa [Nat.add_comm n 1, ← Nat.add_assoc] at hn'

end Alone

/-! ### The outcomes of all jobs -/

/-- What becomes of a job that waits. -/
def Job.alone (opens : ℕ → ℕ → Bool) (job : Job) : Job :=
  ⟨job.id, job.info.alone (opens job.id)⟩

/-- What becomes of a job in the hands of a downloader. -/
def Held.outcome (opens : ℕ → ℕ → Bool) : Held → Job
  | .input job => job.alone opens
  | .output job => if job.info.leaves then job else job.alone opens

/-- What becomes of the jobs of the pipeline, place by place. -/
def Pipeline.outcomes (opens : ℕ → ℕ → Bool) (p : Pipeline) : List Job :=
  p.toDownload.map (Job.alone opens) ++ p.downloaders.map (Held.outcome opens) ++ p.downloaded ++
    p.notifiers.map Held.job ++ p.notified

/-- The world answers a pass as it is foreseen for this attempt of this job. -/
def Pipeline.Foreseen (opens : ℕ → ℕ → Bool) (p : Pipeline) : PipelineAction → Prop
  | .work (.downloaderProcess k a) =>
      ∀ held ∈ p.downloaders[k]?, a.opened = opens held.job.id held.job.info.fattempt
  | _ => True

instance (opens : ℕ → ℕ → Bool) (p : Pipeline) (a : PipelineAction) :
    Decidable (p.Foreseen opens a) :=
  match a with
  | .work (.downloaderProcess k a) => inferInstanceAs (Decidable
      (∀ held ∈ p.downloaders[k]?, a.opened = opens held.job.id held.job.info.fattempt))
  | .work (.downloaderGet _) | .work (.downloaderHandle _) | .work (.notifierGet _)
  | .work (.notifierProcess _) | .work (.notifierHandle _) | .append _ => isTrue trivial

section Steps

variable {servers : ServerMap} {orders : List RucioDownloadInfo} {opens : ℕ → ℕ → Bool}
  {p q : Pipeline}

/-- **A pass does not change what becomes of a job.** -/
theorem outcome_pass {a : Attempt} {job : Job} {result : RucioDownloadInfo × Option Str}
    (hl : job.info.Loaded servers) (hw : job.info.Waiting)
    (hforeseen : a.opened = opens job.id job.info.fattempt)
    (h : downloaderProcessInput servers a job.info = .ok result) :
    (Held.output ⟨job.id, result.1⟩).outcome opens = (Held.input job).outcome opens := by
  obtain ⟨path, -, hrun⟩ := bind_eq_ok.1 h
  by_cases hleft : job.info.fattempt < maxAttempts
  · obtain ⟨source, folder, filename, -, -, -, heq⟩ :=
      rucioDownloadWrapper_attempt hl hleft hw a
    obtain rfl := Except.ok.inj (heq.symm.trans hrun)
    simp only [Held.outcome, Job.alone, alone_of_lt hleft, hforeseen]
    cases opens job.id job.info.fattempt with
    | true => rfl
    | false => rfl
  · have heq := rucioDownloadWrapper_giveUp hl (fun hc ↦ hleft hc.1) a
    obtain rfl := Except.ok.inj (heq.symm.trans hrun)
    simp only [Held.outcome, Job.alone, alone_of_le (Nat.not_lt.1 hleft)]
    rfl

/-- **No step of a worker changes what becomes of the jobs.** -/
theorem outcomes_work (h : Conserving servers orders p) {w : WorkerAction}
    (hforeseen : p.Foreseen opens (.work w)) (hstep : p.work servers w = some q) :
    (q.outcomes opens).Perm (p.outcomes opens) := by
  -- Each step takes one job out of one list and puts it into another: the outcomes are counted, and
  -- only a pass has to say that the job it puts back has the outcome of the one it took.
  refine List.perm_iff_count.2 fun x ↦ ?_
  cases w with
  | downloaderGet i =>
    obtain ⟨job, hjob, rfl⟩ := Pipeline.downloaderGet_eq_some hstep
    have hx := ((perm_cons_eraseIdx hjob).map (Job.alone opens)).count_eq x
    simp only [Pipeline.outcomes, List.map_append, List.map_cons, List.map_nil, Held.outcome,
      List.count_append, List.count_cons, List.count_nil] at hx ⊢
    omega
  | downloaderProcess k a =>
    obtain ⟨job, result, hjob, hrun, rfl⟩ := Pipeline.downloaderProcess_eq_some hstep
    have hmem := List.mem_of_getElem? hjob
    have hmemJobs := mem_jobs.2 (Or.inr (Or.inl ⟨_, hmem, rfl⟩))
    -- here the foreseen attempt is used up: the job alone would do this very pass
    have hsame := outcome_pass (h.loaded job hmemJobs) (h.placed.downloaders _ hmem)
      (hforeseen _ hjob) hrun
    have hx := ((perm_cons_eraseIdx hjob).map (Held.outcome opens)).count_eq x
    have hy := ((set_perm_cons_eraseIdx_of_getElem? hjob (.output ⟨job.id, result.1⟩)).map
      (Held.outcome opens)).count_eq x
    simp only [Pipeline.outcomes, Pipeline.pass, List.map_cons, hsame, List.count_append,
      List.count_cons] at hx hy ⊢
    omega
  | downloaderHandle k =>
    obtain ⟨job, leaves, hjob, hrun, rfl⟩ := Pipeline.downloaderHandle_eq_some hstep
    have hleaves := leaves_of_downloaderHandleOutput hrun
    have hx := ((perm_cons_eraseIdx hjob).map (Held.outcome opens)).count_eq x
    cases leaves with
    | true =>
      simp only [Pipeline.outcomes, Pipeline.release, Held.outcome, ← hleaves, if_true,
        List.map_cons, List.count_append, List.count_cons, List.count_nil] at hx ⊢
      omega
    | false =>
      simp only [Pipeline.outcomes, Pipeline.release, Held.outcome, ← hleaves, Bool.false_eq_true,
        if_false, List.map_append, List.map_cons, List.map_nil, List.count_append, List.count_cons,
        List.count_nil] at hx ⊢
      omega
  | notifierGet i =>
    obtain ⟨job, hjob, rfl⟩ := Pipeline.notifierGet_eq_some hstep
    have hx := (perm_cons_eraseIdx hjob).count_eq x
    simp only [Pipeline.outcomes, List.map_append, List.map_cons, List.map_nil, Held.job,
      List.count_append, List.count_cons, List.count_nil] at hx ⊢
    omega
  | notifierProcess k =>
    obtain ⟨job, hjob, rfl⟩ := Pipeline.notifierProcess_eq_some hstep
    have hx := ((perm_cons_eraseIdx hjob).map Held.job).count_eq x
    have hy := ((set_perm_cons_eraseIdx_of_getElem? hjob (.output job)).map Held.job).count_eq x
    simp only [Pipeline.outcomes, List.map_cons, Held.job, List.count_append,
      List.count_cons] at hx hy ⊢
    omega
  | notifierHandle k =>
    obtain ⟨job, hjob, rfl⟩ := Pipeline.notifierHandle_eq_some hstep
    have hx := ((perm_cons_eraseIdx hjob).map Held.job).count_eq x
    simp only [Pipeline.outcomes, List.map_cons, Held.job, List.count_append, List.count_cons,
      List.count_nil] at hx ⊢
    omega

/-- A new job brings its outcome with it. -/
theorem outcomes_append (info : RucioDownloadInfo) :
    ((p.append info).outcomes opens).Perm
      (p.outcomes opens ++ [Job.alone opens ⟨p.nextId, info⟩]) := by
  refine List.perm_iff_count.2 fun x ↦ ?_
  simp only [Pipeline.outcomes, Pipeline.append, List.map_append, List.map_cons, List.map_nil,
    List.count_append, List.count_cons, List.count_nil]
  omega

end Steps

/-! ### Every schedule -/

/-- The outcomes of a list of jobs, one by one, with the numbers the pipeline gives them. -/
def outcomesAlone (opens : ℕ → ℕ → Bool) (orders : List RucioDownloadInfo) : List Job :=
  orders.zipIdx.map fun order ↦ Job.alone opens ⟨order.2, order.1⟩

theorem outcomesAlone_concat (opens : ℕ → ℕ → Bool) (orders : List RucioDownloadInfo)
    (info : RucioDownloadInfo) :
    outcomesAlone opens (orders ++ [info]) =
      outcomesAlone opens orders ++ [Job.alone opens ⟨orders.length, info⟩] := by
  rw [outcomesAlone, List.zipIdx_append, List.map_append, Nat.zero_add]
  rfl

section Runs

variable {servers : ServerMap} {opens : ℕ → ℕ → Bool} {p : Pipeline}
  {actions : List PipelineAction}

/-- In every state of a run the outcomes of the jobs are those they would have alone. -/
theorem outcomes_of_run (hfresh : ∀ a ∈ actions, a.Admissible servers)
    (hforeseen : StepsMeet (Pipeline.step servers) (Pipeline.Foreseen opens) {} actions)
    (hrun : exec (Pipeline.step servers) {} actions = some p) :
    (p.outcomes opens).Perm (outcomesAlone opens (appended actions)) := by
  have hinv := @run_induction_of_stepsMeet _ _ (Pipeline.step servers) {} (·.Admissible servers)
    (fun as p ↦ Conserving servers (appended as) p ∧
      (p.outcomes opens).Perm (outcomesAlone opens (appended as)))
    (Pipeline.Foreseen opens) ⟨Conserving.start, List.Perm.refl _⟩ ?_ actions hfresh hforeseen p
    hrun
  · exact hinv.2
  rintro as a s t ⟨hs, houtcomes⟩ ha hG hstep
  rw [appended_append]
  cases a with
  | append info =>
    obtain rfl := Option.some.inj hstep
    refine ⟨hs.append ha, (outcomes_append info).trans ?_⟩
    rw [appended, appended, outcomesAlone_concat, hs.nextId]
    exact houtcomes.append_right _
  | work w =>
    rw [appended, appended, List.append_nil]
    exact ⟨hs.work hstep, (outcomes_work hs hG hstep).trans houtcomes⟩

/-- What becomes of an appended job. -/
theorem mem_outcomesAlone {orders : List RucioDownloadInfo} {job : Job} :
    job ∈ outcomesAlone opens orders ↔
      ∃ info, orders[job.id]? = some info ∧ info.alone (opens job.id) = job.info := by
  rw [outcomesAlone, List.mem_map]
  constructor
  · rintro ⟨⟨info, id⟩, hmem, rfl⟩
    exact ⟨info, List.mem_zipIdx_iff_getElem?.1 hmem, rfl⟩
  · rintro ⟨info, hinfo, halone⟩
    refine ⟨(info, job.id), List.mem_zipIdx_iff_getElem?.2 hinfo, ?_⟩
    rw [Job.alone, halone]

/-- **The schedule decides nothing.** Take a run in which only fresh jobs of loaded servers are
appended, in any order with the steps of any number of workers, with a C library of either kind, and
let the world answer each attempt at each job as it is foreseen. A job that the notifiers have let
go has the outcome it would have had alone: it has been downloaded if one of the `maxAttempts`
attempts at it is foreseen to get the file, and has been given up otherwise. Where the workers have
come to rest these are, up to their order, the outcomes of all jobs; so the order of the
notifications is all that another schedule can change. -/
theorem pipeline_outcome {nullCloses : Bool} (hfresh : ∀ a ∈ actions, a.Admissible servers)
    (hforeseen : StepsMeet (Pipeline.step servers) (Pipeline.Foreseen opens) {} actions)
    (hrun : exec (Pipeline.stepOn nullCloses servers) {} actions = some p) :
    (∀ job ∈ p.notified,
      (∃ info, (appended actions)[job.id]? = some info ∧ info.alone (opens job.id) = job.info) ∧
        (job.info.fdownloaded = true ↔ ∃ n < maxAttempts, opens job.id n = true)) ∧
      ((∀ w, p.stepOn nullCloses servers (.work w) = none) →
        p.notified.Perm (outcomesAlone opens (appended actions))) := by
  obtain ⟨hrun, -⟩ := exec_of_guarded hrun
  have houtcomes := outcomes_of_run hfresh hforeseen hrun
  refine ⟨fun job hjob ↦ ?_, fun hrest ↦ ?_⟩
  · have hmem : job ∈ p.outcomes opens := List.mem_append_right _ hjob
    obtain ⟨info, hinfo, halone⟩ := mem_outcomesAlone.1 (houtcomes.mem_iff.1 hmem)
    refine ⟨⟨info, hinfo, halone⟩, ?_⟩
    have hzero := (fresh_of_mem_appended hfresh (List.mem_of_getElem? hinfo)).attempt
    rw [← halone, RucioDownloadInfo.alone, hzero, Nat.sub_zero, fdownloaded_retried_iff, hzero]
    simp only [Nat.zero_add]
  · obtain ⟨htoDownload, hdownloaders, hdownloaded, hnotifiers⟩ := empty_of_rest hfresh hrun hrest
    rw [Pipeline.outcomes, htoDownload, hdownloaders, hdownloaded, hnotifiers] at houtcomes
    exact houtcomes

end Runs

/-! ### Two downloads at a time -/

/-- Two jobs, and what the workers do. -/
def twoJobsRun (work : List WorkerAction) : List PipelineAction :=
  [.append (sampleJob ['n']), .append (sampleJob ['m'])] ++ work.map .work

theorem admissible_twoJobsRun (work : List WorkerAction) :
    ∀ a ∈ twoJobsRun work, a.Admissible sampleServers := by
  intro a ha
  rcases List.mem_append.1 ha with hjob | hwork
  · rcases List.mem_pair.1 hjob with rfl | rfl
    · exact fresh_sampleJob ['n']
    · exact fresh_sampleJob ['m']
  · obtain ⟨w, -, rfl⟩ := List.mem_map.1 hwork
    exact trivial

/-- The jobs that have been done with are notified one after the other. -/
def twoNotifications : List WorkerAction :=
  [.notifierGet 0, .notifierGet 0, .notifierProcess 0, .notifierHandle 0, .notifierProcess 0,
    .notifierHandle 0]

/-- Two workers. The second job is taken first, and it is done with before the first job. Both files
arrive at once. -/
def promptWork : List WorkerAction :=
  [.downloaderGet 1, .downloaderGet 0, .downloaderProcess 0 sampleAttempt, .downloaderHandle 0,
    .downloaderProcess 0 sampleAttempt, .downloaderHandle 0] ++ twoNotifications

/-- The first file arrives at once, the second one with the second attempt. -/
def sampleOpens (id n : ℕ) : Bool := id == 0 || n == 1

/-- The second job is done with both attempts before the first job has made one. -/
def overtakingWork : List WorkerAction :=
  [.downloaderGet 1, .downloaderGet 0,
    .downloaderProcess 0 { sampleAttempt with opened := false },
    .downloaderHandle 0, .downloaderGet 0,
    .downloaderProcess 1 sampleAttempt, .downloaderHandle 1,
    .downloaderProcess 0 sampleAttempt, .downloaderHandle 0] ++ twoNotifications

/-- The command for a sample job. -/
def sampleCommand (name : Str) : Str :=
  downloadCommand
    (configCopyPath sampleServer.configFilePath sampleServer.tempConfigFolder ['j'])
    (sampleJob name).cacheDir ('u' :: ':' :: name)

/-- The pipeline behind the prompt downloads. The second job has been notified first. -/
def twoPromptEnd : Pipeline where
  notified := [⟨1, (sampleJob ['m']).attempted true⟩, ⟨0, (sampleJob ['n']).attempted true⟩]
  nextId := 2
  commands := [(0, sampleCommand ['n']), (1, sampleCommand ['m'])]

/-- The pipeline behind the others: the second job has been notified first, again. -/
def overtakingEnd : Pipeline where
  notified := [⟨1, ((sampleJob ['m']).attempted false).attempted true⟩,
    ⟨0, (sampleJob ['n']).attempted true⟩]
  nextId := 2
  commands := [(0, sampleCommand ['n']), (1, sampleCommand ['m']), (1, sampleCommand ['m'])]

/-- In both cases the notifications are those of the two jobs alone. The failure in the second case
is survived. -/
theorem pipeline_outcome_overtaking :
    twoPromptEnd.notified.Perm
        (outcomesAlone (fun _ _ ↦ true) [sampleJob ['n'], sampleJob ['m']]) ∧
    (∀ job ∈ overtakingEnd.notified,
      job.info.fdownloaded = true ↔ ∃ n < maxAttempts, sampleOpens job.id n = true) ∧
      overtakingEnd.notified.Perm
        (outcomesAlone sampleOpens [sampleJob ['n'], sampleJob ['m']]) := by
  have hprompt : exec (Pipeline.stepOn false sampleServers) {} (twoJobsRun promptWork) =
      some twoPromptEnd := by
    decide +kernel
  have hrun : exec (Pipeline.stepOn true sampleServers) {} (twoJobsRun overtakingWork) =
      some overtakingEnd := by
    decide +kernel
  obtain ⟨-, hpromptly⟩ := @pipeline_outcome _ (fun _ _ ↦ true) _ _ _
    (admissible_twoJobsRun promptWork) (by decide +kernel) hprompt
  obtain ⟨hjobs, hall⟩ := @pipeline_outcome _ sampleOpens _ _ _
    (admissible_twoJobsRun overtakingWork) (by decide +kernel) hrun
  exact ⟨hpromptly (rest_of_empty rfl rfl rfl rfl), fun job hjob ↦ (hjobs job hjob).2,
    hall (rest_of_empty rfl rfl rfl rfl)⟩

end FusePosix
