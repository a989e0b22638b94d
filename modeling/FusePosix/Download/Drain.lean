import FusePosix.Download.Conservation
import Mathlib.Algebra.GroupWithZero.Nat

/-!
# The pipeline runs empty

Every job costs the workers a bounded number of steps. Each pass over a job takes three of them, one
to get the job, one to process it and one to let it go, and so does the notification; and the number
of passes is bounded by the score. `load` counts the steps that may still be due, and each step of a
worker takes at least one off.

So whatever the workers do and whatever the operating system answers, they come to rest if no new
jobs arrive; and where they have come to rest, every job has been notified (`pipeline_drains`).

This is said for either kind of C library (`Pipeline.stepOn`). If `fclose` does not return from a
null pointer, the process ends with the first attempt that does not get its file, and the retry loop
is never taken: the jobs that are notified are those of which the only attempt got the file
(`Unfailing`).
-/

namespace FusePosix

open Transition

/-! ### What is due -/

/-- The steps that may be due for a job in `toDownload`: the passes that are left, one of which
gives up, and the notification. -/
def RucioDownloadInfo.stepsDue (info : RucioDownloadInfo) : ℕ :=
  3 * (maxAttempts + 1 - info.fattempt) + 3

/-- Whether a job leaves for `downloaded` behind its pass. -/
def RucioDownloadInfo.leaves (info : RucioDownloadInfo) : Bool :=
  info.fdownloaded || info.freturnCode == tooManyAttempts

/-- The steps that may be due for a job a downloader holds. -/
def Held.stepsDue : Held → ℕ
  | .input job => job.info.stepsDue - 1
  | .output job => if job.info.leaves then 4 else job.info.stepsDue + 1

/-- The steps that are due for a job a notifier holds. -/
def Held.notifierStepsDue : Held → ℕ
  | .input _ => 2
  | .output _ => 1

/-- The steps that may be due for all jobs of the pipeline. -/
def Pipeline.load (p : Pipeline) : ℕ :=
  (p.toDownload.map fun job ↦ job.info.stepsDue).sum + (p.downloaders.map Held.stepsDue).sum +
    3 * p.downloaded.length + (p.notifiers.map Held.notifierStepsDue).sum

/-- The steps that may be due for a fresh job. -/
def stepsPerJob : ℕ := 3 * (maxAttempts + 1) + 3

/-- What an action costs: one step of a worker. -/
def PipelineAction.cost : PipelineAction → ℕ
  | .append _ => 0
  | .work _ => 1

/-- What an action adds to the load. -/
def PipelineAction.gain : PipelineAction → ℕ
  | .append _ => stepsPerJob
  | .work _ => 0

/-- The number of worker steps of a run. -/
def workSteps (actions : List PipelineAction) : ℕ := (actions.map PipelineAction.cost).sum

/-! ### Sums over places -/

section Sums

variable {α : Type*} {l : List α} {i : ℕ} {x : α} (f : α → ℕ)

theorem sum_map_eraseIdx (h : l[i]? = some x) :
    (l.map f).sum = f x + ((l.eraseIdx i).map f).sum := by
  have hperm := ((perm_cons_eraseIdx h).map f).sum_nat
  rwa [List.map_cons, List.sum_cons] at hperm

theorem sum_map_set (h : l[i]? = some x) (y : α) :
    ((l.set i y).map f).sum = f y + ((l.eraseIdx i).map f).sum := by
  have hperm := ((set_perm_cons_eraseIdx_of_getElem? h y).map f).sum_nat
  rwa [List.map_cons, List.sum_cons] at hperm

theorem sum_map_concat (l : List α) (y : α) : ((l ++ [y]).map f).sum = (l.map f).sum + f y := by
  rw [List.map_append, List.sum_append, List.map_singleton, List.sum_singleton]

end Sums

/-! ### One step -/

section Steps

variable {servers : ServerMap} {orders : List RucioDownloadInfo} {p q : Pipeline}

/-- Where `handle_output` sends a job. -/
theorem leaves_of_downloaderHandleOutput {info : RucioDownloadInfo} {leaves : Bool}
    (h : downloaderHandleOutput info = .ok leaves) : leaves = info.leaves := by
  rw [downloaderHandleOutput] at h
  split_ifs at h with hd hc
  · obtain ⟨path, -, h⟩ := bind_eq_ok.1 h
    rw [← Except.ok.inj h, RucioDownloadInfo.leaves, hd, Bool.true_or]
  · obtain ⟨path, -, h⟩ := bind_eq_ok.1 h
    rw [← Except.ok.inj h, RucioDownloadInfo.leaves, Bool.eq_false_of_not_eq_true hd, Bool.false_or,
      beq_eq_false_iff_ne.2 hc]
  · rw [← Except.ok.inj h, RucioDownloadInfo.leaves, beq_iff_eq.2 (not_not.1 hc), Bool.or_true]

/-- **A pass leaves less to do than it found.** -/
theorem stepsDue_pass {a : Attempt} {job : Job} {result : RucioDownloadInfo × Option Str}
    (hl : job.info.Loaded servers) (hw : job.info.Waiting) (hle : job.info.fattempt ≤ maxAttempts)
    (h : downloaderProcessInput servers a job.info = .ok result) :
    (Held.output ⟨job.id, result.1⟩).stepsDue + 1 ≤ (Held.input job).stepsDue := by
  obtain ⟨path, -, hrun⟩ := bind_eq_ok.1 h
  have hmax : maxAttempts = 4 := rfl
  by_cases hleft : job.info.fattempt < maxAttempts
  · obtain ⟨source, folder, filename, -, -, -, heq⟩ :=
      rucioDownloadWrapper_attempt hl hleft hw a
    have hscore : result.1.fattempt = job.info.fattempt + 1 := by
      obtain rfl := Except.ok.inj (heq.symm.trans hrun)
      rfl
    simp only [Held.stepsDue, RucioDownloadInfo.stepsDue, hscore]
    split_ifs
    · omega
    · omega
  · -- the last pass gives up
    have heq := rucioDownloadWrapper_giveUp hl (fun hc ↦ hleft hc.1) a
    obtain rfl := Except.ok.inj (heq.symm.trans hrun)
    have hleaves : job.info.givenUp.leaves = true := rfl
    simp only [Held.stepsDue, RucioDownloadInfo.stepsDue, hleaves, if_true]
    omega

/-- What a pass, a hand-over or a notification takes off the load. -/
theorem load_work (h : Conserving servers orders p) {w : WorkerAction}
    (hstep : p.work servers w = some q) : q.load + 1 ≤ p.load := by
  -- the load is a sum over the queues and the hands, so a step is weighed by the one job it moves
  have hpl := h.placed
  cases w with
  | downloaderGet i =>
    obtain ⟨job, hjob, rfl⟩ := Pipeline.downloaderGet_eq_some hstep
    have hsum := sum_map_eraseIdx (fun job : Job ↦ job.info.stepsDue) hjob
    have hdue : (Held.input job).stepsDue + 1 = job.info.stepsDue := rfl
    simp only [Pipeline.load, sum_map_concat]
    omega
  | downloaderProcess k a =>
    obtain ⟨job, result, hjob, hrun, rfl⟩ := Pipeline.downloaderProcess_eq_some hstep
    have hmem := List.mem_of_getElem? hjob
    have hmemJobs := mem_jobs.2 (Or.inr (Or.inl ⟨_, hmem, rfl⟩))
    -- the only case with an argument: the attempts a job has left are what a pass takes away
    have hdue := stepsDue_pass (h.loaded job hmemJobs) (hpl.downloaders _ hmem)
      (h.attempts job hmemJobs).2 hrun
    have hsum := sum_map_eraseIdx Held.stepsDue hjob
    have hset := sum_map_set Held.stepsDue hjob (.output ⟨job.id, result.1⟩)
    simp only [Pipeline.load, Pipeline.pass]
    omega
  | downloaderHandle k =>
    obtain ⟨job, leaves, hjob, hrun, rfl⟩ := Pipeline.downloaderHandle_eq_some hstep
    have hleaves := leaves_of_downloaderHandleOutput hrun
    have hsum := sum_map_eraseIdx Held.stepsDue hjob
    cases leaves with
    | true =>
      have hdue : (Held.output job).stepsDue = 4 := if_pos hleaves.symm
      simp only [Pipeline.load, Pipeline.release, if_true, List.length_append,
        List.length_singleton]
      omega
    | false =>
      have hdue : (Held.output job).stepsDue = job.info.stepsDue + 1 :=
        if_neg (by rw [← hleaves]; exact Bool.false_ne_true)
      simp only [Pipeline.load, Pipeline.release, Bool.false_eq_true, if_false, sum_map_concat]
      omega
  | notifierGet i =>
    obtain ⟨job, hjob, rfl⟩ := Pipeline.notifierGet_eq_some hstep
    have hlength := (perm_cons_eraseIdx hjob).length_eq
    have hdue : (Held.input job).notifierStepsDue = 2 := rfl
    simp only [Pipeline.load, sum_map_concat, List.length_cons] at hlength ⊢
    omega
  | notifierProcess k =>
    obtain ⟨job, hjob, rfl⟩ := Pipeline.notifierProcess_eq_some hstep
    have hsum := sum_map_eraseIdx Held.notifierStepsDue hjob
    have hset := sum_map_set Held.notifierStepsDue hjob (.output job)
    have hbefore : (Held.input job).notifierStepsDue = 2 := rfl
    have hafter : (Held.output job).notifierStepsDue = 1 := rfl
    simp only [Pipeline.load]
    omega
  | notifierHandle k =>
    obtain ⟨job, hjob, rfl⟩ := Pipeline.notifierHandle_eq_some hstep
    have hsum := sum_map_eraseIdx Held.notifierStepsDue hjob
    have hdue : (Held.output job).notifierStepsDue = 1 := rfl
    simp only [Pipeline.load]
    omega

/-- A fresh job brings its steps with it. -/
theorem load_append {info : RucioDownloadInfo} (h : info.Fresh servers) :
    (p.append info).load = p.load + stepsPerJob := by
  have hdue : info.stepsDue = stepsPerJob := by
    rw [RucioDownloadInfo.stepsDue, h.attempt, stepsPerJob, Nat.sub_zero]
  simp only [Pipeline.load, Pipeline.append, sum_map_concat, hdue]
  omega

end Steps

/-! ### A process that ends with the first failure -/

/-- The only attempt at a job has got its file. -/
def RucioDownloadInfo.Got (info : RucioDownloadInfo) : Prop :=
  info.fdownloaded = true ∧ info.fattempt = 1

/-- What is known of a job in the hands of a downloader, as long as no attempt has failed. -/
def Held.Unfailing : Held → Prop
  | .input job => job.info.fattempt = 0
  | .output job => job.info.Got

/-- No attempt has failed: there has been none at a job that waits, and the only one at any other
job has got the file. -/
structure Unfailing (p : Pipeline) : Prop where
  toDownload : ∀ job ∈ p.toDownload, job.info.fattempt = 0
  downloaders : ∀ h ∈ p.downloaders, h.Unfailing
  downloaded : ∀ job ∈ p.downloaded, job.info.Got
  notifiers : ∀ h ∈ p.notifiers, h.job.info.Got
  notified : ∀ job ∈ p.notified, job.info.Got

section Unfailing

variable {servers : ServerMap} {orders : List RucioDownloadInfo} {p q : Pipeline}

/-- A pass that is survived has got the file. -/
theorem got_of_survives {k : ℕ} {a : Attempt} {job : Job}
    {result : RucioDownloadInfo × Option Str} (hl : job.info.Loaded servers)
    (hw : job.info.Waiting) (hzero : job.info.fattempt = 0)
    (hjob : p.downloaders[k]? = some (.input job))
    (hsurvives : p.survives false servers (.work (.downloaderProcess k a)) = true)
    (h : downloaderProcessInput servers a job.info = .ok result) : result.1.Got := by
  obtain ⟨path, -, hrun⟩ := bind_eq_ok.1 h
  have hleft : job.info.fattempt < maxAttempts := hzero ▸ (by decide : 0 < maxAttempts)
  have hattempts : p.attempts servers k = true := by
    rw [Pipeline.attempts, hjob]
    simp only [hl.server, hleft, decide_true, Bool.and_true, Bool.true_and, decide_eq_true_eq]
    exact hw
  have hopened : a.opened = true := by
    rwa [Pipeline.survives, hattempts, Bool.not_true, Bool.or_false, Bool.false_or] at hsurvives
  obtain ⟨source, folder, filename, -, -, -, heq⟩ := rucioDownloadWrapper_attempt hl hleft hw a
  obtain rfl := Except.ok.inj (heq.symm.trans hrun)
  refine ⟨hopened, ?_⟩
  show job.info.fattempt + 1 = 1
  rw [hzero]

/-- **A step that is survived leaves no failure behind.** -/
theorem Unfailing.work (hu : Unfailing p) (h : Conserving servers orders p) {w : WorkerAction}
    (hsurvives : p.survives false servers (.work w) = true)
    (hstep : p.work servers w = some q) : Unfailing q := by
  cases w with
  | downloaderGet i =>
    obtain ⟨job, hjob, rfl⟩ := Pipeline.downloaderGet_eq_some hstep
    have hzero : job.info.fattempt = 0 := hu.toDownload job (List.mem_of_getElem? hjob)
    exact { hu with
      toDownload := forall_mem_eraseIdx hu.toDownload i
      downloaders := forall_mem_concat hu.downloaders hzero }
  | downloaderProcess k a =>
    obtain ⟨job, result, hjob, hrun, rfl⟩ := Pipeline.downloaderProcess_eq_some hstep
    have hmem := List.mem_of_getElem? hjob
    have hmemJobs := mem_jobs.2 (Or.inr (Or.inl ⟨_, hmem, rfl⟩))
    -- a pass that opened no file would have ended the process, so the job it puts back is done
    have hgot : result.1.Got := got_of_survives (h.loaded job hmemJobs)
      (h.placed.downloaders _ hmem) (hu.downloaders _ hmem) hjob hsurvives hrun
    exact { hu with downloaders := forall_mem_set hu.downloaders k hgot }
  | downloaderHandle k =>
    obtain ⟨job, leaves, hjob, hrun, rfl⟩ := Pipeline.downloaderHandle_eq_some hstep
    have hgot : job.info.Got := hu.downloaders _ (List.mem_of_getElem? hjob)
    -- and a done job is handed to the notifiers: the way back to the first queue is not taken
    have hleaves : leaves = true := by
      rw [leaves_of_downloaderHandleOutput hrun, RucioDownloadInfo.leaves, hgot.1, Bool.true_or]
    rw [hleaves, Pipeline.release, if_pos rfl]
    exact { hu with
      downloaders := forall_mem_eraseIdx hu.downloaders k
      downloaded := forall_mem_concat hu.downloaded hgot }
  | notifierGet i =>
    obtain ⟨job, hjob, rfl⟩ := Pipeline.notifierGet_eq_some hstep
    have hgot : job.info.Got := hu.downloaded job (List.mem_of_getElem? hjob)
    exact { hu with
      downloaded := forall_mem_eraseIdx hu.downloaded i
      notifiers := forall_mem_concat hu.notifiers hgot }
  | notifierProcess k =>
    obtain ⟨job, hjob, rfl⟩ := Pipeline.notifierProcess_eq_some hstep
    have hgot : job.info.Got := hu.notifiers _ (List.mem_of_getElem? hjob)
    exact { hu with notifiers := forall_mem_set hu.notifiers k hgot }
  | notifierHandle k =>
    obtain ⟨job, hjob, rfl⟩ := Pipeline.notifierHandle_eq_some hstep
    have hgot : job.info.Got := hu.notifiers _ (List.mem_of_getElem? hjob)
    exact { hu with
      notifiers := forall_mem_eraseIdx hu.notifiers k
      notified := forall_mem_concat hu.notified hgot }

/-- **A run that is survived leaves no failure behind.** -/
theorem unfailing_run {actions : List PipelineAction}
    (hfresh : ∀ a ∈ actions, a.Admissible servers)
    (hsurvived : StepsMeet (Pipeline.step servers)
      (fun p a ↦ p.survives false servers a = true) {} actions)
    (hrun : exec (Pipeline.step servers) {} actions = some p) : Unfailing p := by
  have hinv := @run_induction_of_stepsMeet _ _ (Pipeline.step servers) {} (·.Admissible servers)
    (fun as p ↦ Conserving servers (appended as) p ∧ Unfailing p)
    (fun p a ↦ p.survives false servers a = true) ⟨Conserving.start, ?_⟩ ?_ actions hfresh
    hsurvived p hrun
  · exact hinv.2
  · constructor <;> exact fun _ hmem ↦ absurd hmem List.not_mem_nil
  rintro as a s t ⟨hs, hu⟩ ha hsurvives hstep
  rw [appended_append]
  cases a with
  | append info =>
    obtain rfl := Option.some.inj hstep
    exact ⟨hs.append ha, { hu with toDownload := forall_mem_concat hu.toDownload ha.attempt }⟩
  | work w =>
    rw [appended, appended, List.append_nil]
    exact ⟨hs.work hstep, hu.work hs hsurvives hstep⟩

end Unfailing

/-! ### Every run -/

section Runs

variable {servers : ServerMap} {p : Pipeline} {actions : List PipelineAction}

theorem sum_gain (actions : List PipelineAction) :
    (actions.map PipelineAction.gain).sum = stepsPerJob * (appended actions).length := by
  induction actions with
  | nil => rfl
  | cons a actions ih =>
    rw [List.map_cons, List.sum_cons, ih]
    cases a with
    | append info =>
      rw [appended, List.length_cons, Nat.mul_succ, PipelineAction.gain, Nat.add_comm]
    | work w => rw [appended, PipelineAction.gain, Nat.zero_add]

/-- **The steps of a run are paid for by the jobs that were appended.** -/
theorem workSteps_add_load_le (hfresh : ∀ a ∈ actions, a.Admissible servers)
    (hrun : exec (Pipeline.step servers) {} actions = some p) :
    workSteps actions + p.load ≤ stepsPerJob * (appended actions).length := by
  have hpaid := @cost_le_of_potential _ _ (Pipeline.step servers) (·.Admissible servers)
    (fun p ↦ ∃ orders, Conserving servers orders p) Pipeline.load PipelineAction.cost
    PipelineAction.gain ?_ actions {} p ⟨[], Conserving.start⟩ hfresh hrun
  · rw [sum_gain] at hpaid
    exact hpaid
  · rintro s a t ⟨orders, hs⟩ ha hstep
    cases a with
    | append info =>
      obtain rfl := Option.some.inj hstep
      refine ⟨⟨_, hs.append ha⟩, ?_⟩
      rw [load_append ha, PipelineAction.cost, PipelineAction.gain]
      omega
    | work w =>
      have hload := load_work hs hstep
      refine ⟨⟨orders, hs.work hstep⟩, ?_⟩
      rw [PipelineAction.cost, PipelineAction.gain]
      omega

/-- Where no worker can go on, nothing waits and nobody holds a job. -/
theorem empty_of_rest {nullCloses : Bool} (hfresh : ∀ a ∈ actions, a.Admissible servers)
    (hrun : exec (Pipeline.step servers) {} actions = some p)
    (hrest : ∀ w, p.stepOn nullCloses servers (.work w) = none) :
    p.toDownload = [] ∧ p.downloaders = [] ∧ p.downloaded = [] ∧ p.notifiers = [] := by
  obtain ⟨hprocess, hhandle, hprint, hlet⟩ := worker_never_stuck hfresh hrun 0
  have hidle : ∀ w, p.survives nullCloses servers (.work w) = true → p.work servers w = none :=
    fun w hw ↦ (if_pos hw).symm.trans (hrest w)
  have htoDownload : p.toDownload = [] := by
    have hget := Option.map_eq_none_iff.1 (hidle (.downloaderGet 0) rfl)
    exact List.length_eq_zero_iff.1 (Nat.le_zero.1 (List.getElem?_eq_none_iff.1 hget))
  have hdownloaded : p.downloaded = [] := by
    have hget := Option.map_eq_none_iff.1 (hidle (.notifierGet 0) rfl)
    exact List.length_eq_zero_iff.1 (Nat.le_zero.1 (List.getElem?_eq_none_iff.1 hget))
  have hdownloaders : p.downloaders = [] := by
    rcases hheld : p.downloaders with - | ⟨held, others⟩
    · rfl
    have hfirst : p.downloaders[0]? = some held := by rw [hheld, List.getElem?_cons_zero]
    cases held with
    | input job =>
      -- a pass that gets the file is survived with either C library
      have hsurvives : p.survives nullCloses servers
          (.work (.downloaderProcess 0 sampleAttempt)) = true := by
        rw [Pipeline.survives, show sampleAttempt.opened = true from rfl, Bool.or_true,
          Bool.true_or]
      have hgoes := hprocess job hfirst sampleAttempt
      rw [show p.downloaderProcess servers 0 sampleAttempt = none from
        hidle (.downloaderProcess 0 sampleAttempt) hsurvives] at hgoes
      cases hgoes
    | output job =>
      have hgoes := hhandle job hfirst
      rw [show p.downloaderHandle 0 = none from hidle (.downloaderHandle 0) rfl] at hgoes
      cases hgoes
  have hnotifiers : p.notifiers = [] := by
    rcases hheld : p.notifiers with - | ⟨held, others⟩
    · rfl
    have hfirst : p.notifiers[0]? = some held := by rw [hheld, List.getElem?_cons_zero]
    cases held with
    | input job =>
      have hgoes := hprint job hfirst
      rw [show p.notifierProcess 0 = none from hidle (.notifierProcess 0) rfl] at hgoes
      cases hgoes
    | output job =>
      have hgoes := hlet job hfirst
      rw [show p.notifierHandle 0 = none from hidle (.notifierHandle 0) rfl] at hgoes
      cases hgoes
  exact ⟨htoDownload, hdownloaders, hdownloaded, hnotifiers⟩

/-- Nobody can go on in a pipeline without jobs to work on. -/
theorem rest_of_empty {nullCloses : Bool} (htoDownload : p.toDownload = [])
    (hdownloaders : p.downloaders = []) (hdownloaded : p.downloaded = [])
    (hnotifiers : p.notifiers = []) (w : WorkerAction) :
    p.stepOn nullCloses servers (.work w) = none := by
  have hidle : p.work servers w = none := by
    cases w with
    | downloaderGet i => simp [Pipeline.work, Pipeline.downloaderGet, htoDownload]
    | downloaderProcess k a => simp [Pipeline.work, Pipeline.downloaderProcess, hdownloaders]
    | downloaderHandle k => simp [Pipeline.work, Pipeline.downloaderHandle, hdownloaders]
    | notifierGet i => simp [Pipeline.work, Pipeline.notifierGet, hdownloaded]
    | notifierProcess k => simp [Pipeline.work, Pipeline.notifierProcess, hnotifiers]
    | notifierHandle k => simp [Pipeline.work, Pipeline.notifierHandle, hnotifiers]
  rw [Pipeline.stepOn, guarded]
  split_ifs
  · exact hidle
  · rfl

theorem jobs_eq_notified_of_rest {nullCloses : Bool} (hfresh : ∀ a ∈ actions, a.Admissible servers)
    (hrun : exec (Pipeline.step servers) {} actions = some p)
    (hrest : ∀ w, p.stepOn nullCloses servers (.work w) = none) : p.jobs = p.notified := by
  obtain ⟨htoDownload, hdownloaders, hdownloaded, hnotifiers⟩ := empty_of_rest hfresh hrun hrest
  rw [Pipeline.jobs, htoDownload, hdownloaded, hdownloaders, hnotifiers]
  rfl

/-- **The pipeline runs empty**, with a C library of either kind. Behind every run in which only
fresh jobs of loaded servers are appended, in any order with the steps of any number of workers and
whatever becomes of the attempts, the workers have taken at most `stepsPerJob` steps for each job;
and if none of them can go on, each job has been notified once, downloaded or given up. Where
`fclose` does not return from a null pointer, all jobs that have been notified are downloaded, with
the first attempt. -/
theorem pipeline_drains {nullCloses : Bool} (hfresh : ∀ a ∈ actions, a.Admissible servers)
    (hrun : exec (Pipeline.stepOn nullCloses servers) {} actions = some p) :
    workSteps actions ≤ stepsPerJob * (appended actions).length ∧
      ((∀ w, p.stepOn nullCloses servers (.work w) = none) →
        (p.notified.map Job.id).Perm (List.range (appended actions).length) ∧
        ∀ job ∈ p.notified, job.info.Settled) ∧
      (nullCloses = false → ∀ job ∈ p.notified, job.info.Got) := by
  obtain ⟨hsteps, hsurvived⟩ := exec_of_guarded hrun
  have hinv := conserving_of_run hfresh hsteps
  refine ⟨(Nat.le_add_right _ _).trans (workSteps_add_load_le hfresh hsteps), fun hrest ↦ ?_, ?_⟩
  · have hids := hinv.ids_perm
    rw [jobs_eq_notified_of_rest hfresh hsteps hrest] at hids
    exact ⟨hids, hinv.placed.notified⟩
  · rintro rfl
    exact (unfailing_run hfresh hsurvived hsteps).notified

end Runs

/-! ### The longest way, and the shortest -/

/-- The work at a download, attempt after attempt. The notifier comes last. -/
def downloadWork (opens : List Bool) : List WorkerAction :=
  (opens.flatMap fun opened ↦ [.downloaderGet 0,
    .downloaderProcess 0 { sampleAttempt with opened }, .downloaderHandle 0]) ++
  [.notifierGet 0, .notifierProcess 0, .notifierHandle 0]

/-- The download of one job. -/
def downloadRun (opens : List Bool) : List PipelineAction :=
  .append (sampleJob ['n']) :: (downloadWork opens).map .work

theorem admissible_downloadRun (opens : List Bool) :
    ∀ a ∈ downloadRun opens, a.Admissible sampleServers := by
  intro a ha
  rcases List.mem_cons.1 ha with rfl | hwork
  · exact fresh_sampleJob ['n']
  · obtain ⟨w, -, rfl⟩ := List.mem_map.1 hwork
    exact trivial

/-- The commands of such a run. -/
def downloadCommands (attempts : ℕ) : List (ℕ × Str) :=
  List.replicate attempts (0, downloadCommand
    (configCopyPath sampleServer.configFilePath sampleServer.tempConfigFolder ['j'])
    (sampleJob ['n']).cacheDir ['u', ':', 'n'])

/-- The pipeline behind a download that gets its file at once. -/
def promptEnd : Pipeline where
  notified := [⟨0, (sampleJob ['n']).attempted true⟩]
  nextId := 1
  commands := downloadCommands 1

/-- The pipeline behind a download that fails every time. -/
def hopelessEnd : Pipeline where
  notified := [⟨0, ((List.replicate maxAttempts false).foldl RucioDownloadInfo.attempted
    (sampleJob ['n'])).givenUp⟩]
  nextId := 1
  commands := downloadCommands maxAttempts

/-- A download that gets its file at once, with a C library that ends the process at a null pointer;
and one that fails every time, with one that does not. The latter takes all the steps that may be
due. -/
theorem pipeline_drains_prompt_hopeless :
    ((promptEnd.notified.map Job.id).Perm [0] ∧ ∀ job ∈ promptEnd.notified, job.info.Got) ∧
    workSteps (downloadRun (List.replicate (maxAttempts + 1) false)) = stepsPerJob ∧
      (hopelessEnd.notified.map Job.id).Perm [0] ∧
        ∀ job ∈ hopelessEnd.notified, job.info.Settled := by
  have hprompt : exec (Pipeline.stepOn false sampleServers) {} (downloadRun [true]) =
      some promptEnd := by
    decide +kernel
  have hhopeless : exec (Pipeline.stepOn true sampleServers) {}
      (downloadRun (List.replicate (maxAttempts + 1) false)) = some hopelessEnd := by
    decide +kernel
  obtain ⟨-, hdone, hgot⟩ := pipeline_drains (admissible_downloadRun _) hprompt
  obtain ⟨-, hdone', -⟩ := pipeline_drains (admissible_downloadRun _) hhopeless
  exact ⟨⟨(hdone (rest_of_empty rfl rfl rfl rfl)).1, hgot rfl⟩, by decide,
    hdone' (rest_of_empty rfl rfl rfl rfl)⟩

end FusePosix
