import FusePosix.Download.Pipeline
import FusePosix.Lib.Transition
import Mathlib.Data.List.Nodup

/-!
# Jobs are conserved

What holds of the pipeline behind every run, whatever the schedule of the workers and whatever the
operating system answers, as long as only fresh jobs of loaded servers are appended
(`download_job_conservation`): every appended job is in exactly one place, its score is the number
of commands that were run for it and never exceeds `maxAttempts`, and a job that has been handed on
is either downloaded or given up with the full score.

The proof has two halves. Every step of a worker **moves** one job (`Moved`): it leaves the other
jobs where they are, and the job it moves keeps its number and its order. Hence the jobs of the
pipeline are, up to their places, always the appended ones. And every place has a **condition** on
the return code and the score of the jobs in it (`Placed`), which a pass and the routing behind it
establish for the place the job goes to. The condition that keeps the retry loop going is that a
waiting job never carries `settingsNotFound`: the pass that records this code overwrites it.
-/

namespace FusePosix

/-! ### Places -/

/-- All jobs of the pipeline, place by place. -/
def Pipeline.jobs (p : Pipeline) : List Job :=
  p.toDownload ++ p.downloaders.map Held.job ++ p.downloaded ++ p.notifiers.map Held.job ++
    p.notified

/-- How often a job is in the pipeline, place by place. -/
def Pipeline.occurrences (p : Pipeline) (id : ℕ) : ℕ :=
  p.toDownload.countP (·.id == id) + p.downloaders.countP (·.job.id == id) +
    p.downloaded.countP (·.id == id) + p.notifiers.countP (·.job.id == id) +
    p.notified.countP (·.id == id)

/-- The number of commands run for a job. -/
def Pipeline.commandCount (p : Pipeline) (id : ℕ) : ℕ :=
  p.commands.countP (·.1 == id)

/-- The jobs appended in a run, in order. -/
def appended : List PipelineAction → List RucioDownloadInfo
  | [] => []
  | .append info :: actions => info :: appended actions
  | .work _ :: actions => appended actions

/-- An action appends a fresh job of a loaded server, if it appends any. -/
def PipelineAction.Admissible (servers : ServerMap) : PipelineAction → Prop
  | .append info => info.Fresh servers
  | .work _ => True

/-- How a job leaves the pipeline: downloaded, or given up after the last attempt. -/
def RucioDownloadInfo.Settled (info : RucioDownloadInfo) : Prop :=
  (info.fdownloaded = true ∧ info.freturnCode = 0) ∨
    (info.fdownloaded = false ∧ info.freturnCode = tooManyAttempts ∧ info.fattempt = maxAttempts)

/-- **What is conserved**, after the given jobs have been appended. -/
structure Conserved (orders : List RucioDownloadInfo) (p : Pipeline) : Prop where
  /-- Every appended job is in exactly one place, once. -/
  onePlace : ∀ id < orders.length, p.occurrences id = 1
  /-- Every job in the pipeline is an appended one, apart from its score. -/
  origin : ∀ job ∈ p.jobs, orders[job.id]? = some job.info.order
  /-- The score of a job counts its commands. -/
  attempts : ∀ job ∈ p.jobs, job.info.fattempt = p.commandCount job.id ∧
    job.info.fattempt ≤ maxAttempts
  /-- What has been handed on is settled. -/
  outcome : ∀ job ∈ p.downloaded, job.info.Settled

/-! ### Moves -/

/-- One job goes from one place to another; it may change, but stays the same order. -/
def Moved (p q : Pipeline) (job job' : Job) : Prop :=
  job'.id = job.id ∧ job'.info.order = job.info.order ∧
    ∃ others, p.jobs.Perm (job :: others) ∧ q.jobs.Perm (job' :: others)

variable {servers : ServerMap} {p q : Pipeline} {job job' : Job}

/-- A move is seen in the counts: one job less and one more. -/
theorem moved_of_count (hid : job'.id = job.id) (horder : job'.info.order = job.info.order)
    (hmem : job ∈ p.jobs)
    (hcount : ∀ x, q.jobs.count x + [job].count x = p.jobs.count x + [job'].count x) :
    Moved p q job job' := by
  have hp := List.perm_cons_erase hmem
  refine ⟨hid, horder, p.jobs.erase job, hp, List.perm_iff_count.2 fun x ↦ ?_⟩
  have hx := hcount x
  rw [hp.count_eq x] at hx
  simp only [List.count_cons, List.count_nil] at hx ⊢
  omega

theorem mem_jobs : job ∈ p.jobs ↔ job ∈ p.toDownload ∨ (∃ h ∈ p.downloaders, h.job = job) ∨
    job ∈ p.downloaded ∨ (∃ h ∈ p.notifiers, h.job = job) ∨ job ∈ p.notified := by
  simp only [Pipeline.jobs, List.mem_append, List.mem_map, or_assoc]

section Steps

theorem moved_downloaderGet {i : ℕ} (h : p.toDownload[i]? = some job) :
    Moved p { p with toDownload := p.toDownload.eraseIdx i,
                     downloaders := p.downloaders ++ [.input job] } job job := by
  refine moved_of_count rfl rfl (mem_jobs.2 (Or.inl (List.mem_of_getElem? h))) fun x ↦ ?_
  have hx := (perm_cons_eraseIdx h).count_eq x
  simp only [Pipeline.jobs, List.map_append, List.map_cons, List.map_nil, Held.job,
    List.count_append, List.count_cons, List.count_nil] at hx ⊢
  omega

theorem moved_pass {k : ℕ} {result : RucioDownloadInfo × Option Str}
    (h : p.downloaders[k]? = some (.input job)) (horder : result.1.order = job.info.order) :
    Moved p (p.pass k job result) job ⟨job.id, result.1⟩ := by
  refine moved_of_count rfl horder
    (mem_jobs.2 (Or.inr (Or.inl ⟨_, List.mem_of_getElem? h, rfl⟩))) fun x ↦ ?_
  have hx := ((perm_cons_eraseIdx h).map Held.job).count_eq x
  have hy := ((set_perm_cons_eraseIdx_of_getElem? h (.output ⟨job.id, result.1⟩)).map
    Held.job).count_eq x
  simp only [Pipeline.jobs, Pipeline.pass, List.map_cons, Held.job, List.count_append,
    List.count_cons, List.count_nil] at hx hy ⊢
  omega

theorem moved_release {k : ℕ} (h : p.downloaders[k]? = some (.output job)) (leaves : Bool) :
    Moved p (p.release k job leaves) job job := by
  refine moved_of_count rfl rfl
    (mem_jobs.2 (Or.inr (Or.inl ⟨_, List.mem_of_getElem? h, rfl⟩))) fun x ↦ ?_
  have hx := ((perm_cons_eraseIdx h).map Held.job).count_eq x
  cases leaves <;>
  · simp only [Pipeline.jobs, Pipeline.release, List.map_cons, Held.job, List.count_append,
      List.count_cons, List.count_nil, if_true, Bool.false_eq_true, if_false] at hx ⊢
    omega

theorem moved_notifierGet {i : ℕ} (h : p.downloaded[i]? = some job) :
    Moved p { p with downloaded := p.downloaded.eraseIdx i,
                     notifiers := p.notifiers ++ [.input job] } job job := by
  refine moved_of_count rfl rfl
    (mem_jobs.2 (Or.inr (Or.inr (Or.inl (List.mem_of_getElem? h))))) fun x ↦ ?_
  have hx := (perm_cons_eraseIdx h).count_eq x
  simp only [Pipeline.jobs, List.map_append, List.map_cons, List.map_nil, Held.job,
    List.count_append, List.count_cons, List.count_nil] at hx ⊢
  omega

theorem moved_notifierProcess {k : ℕ} (h : p.notifiers[k]? = some (.input job)) :
    Moved p { p with notifiers := p.notifiers.set k (.output job) } job job := by
  refine moved_of_count rfl rfl
    (mem_jobs.2 (Or.inr (Or.inr (Or.inr (Or.inl ⟨_, List.mem_of_getElem? h, rfl⟩))))) fun x ↦ ?_
  have hx := ((perm_cons_eraseIdx h).map Held.job).count_eq x
  have hy := ((set_perm_cons_eraseIdx_of_getElem? h (.output job)).map Held.job).count_eq x
  simp only [Pipeline.jobs, List.map_cons, Held.job, List.count_append, List.count_cons,
    List.count_nil] at hx hy ⊢
  omega

theorem moved_notifierHandle {k : ℕ} (h : p.notifiers[k]? = some (.output job)) :
    Moved p { p with notifiers := p.notifiers.eraseIdx k, notified := p.notified ++ [job] }
      job job := by
  refine moved_of_count rfl rfl
    (mem_jobs.2 (Or.inr (Or.inr (Or.inr (Or.inl ⟨_, List.mem_of_getElem? h, rfl⟩))))) fun x ↦ ?_
  have hx := ((perm_cons_eraseIdx h).map Held.job).count_eq x
  simp only [Pipeline.jobs, List.map_cons, Held.job, List.count_append, List.count_cons,
    List.count_nil] at hx ⊢
  omega

end Steps

/-! ### Conditions of the places -/

/-- A job that a downloader may take. -/
def RucioDownloadInfo.Waiting (info : RucioDownloadInfo) : Prop :=
  info.freturnCode ≠ settingsNotFound

/-- A job behind a pass: it is settled, or the pass has failed and another one is due. -/
def RucioDownloadInfo.Passed (info : RucioDownloadInfo) : Prop :=
  info.Settled ∨ (info.fdownloaded = false ∧ info.freturnCode = fileNotFound)

/-- The condition on a job in the hands of a downloader. -/
def Held.Ready : Held → Prop
  | .input job => job.info.Waiting
  | .output job => job.info.Passed

/-- Every job meets the condition of its place. -/
structure Placed (p : Pipeline) : Prop where
  toDownload : ∀ job ∈ p.toDownload, job.info.Waiting
  downloaders : ∀ h ∈ p.downloaders, h.Ready
  downloaded : ∀ job ∈ p.downloaded, job.info.Settled
  notifiers : ∀ h ∈ p.notifiers, h.job.info.Settled
  notified : ∀ job ∈ p.notified, job.info.Settled

/-- **What a pass does to a waiting job**: it runs one command and adds one to the score, or runs
nothing and gives up. -/
theorem downloaderProcessInput_cases {a : Attempt} {info : RucioDownloadInfo}
    {result : RucioDownloadInfo × Option Str} (hl : info.Loaded servers) (hw : info.Waiting)
    (hle : info.fattempt ≤ maxAttempts)
    (h : downloaderProcessInput servers a info = .ok result) :
    result.1.order = info.order ∧ result.1.Passed ∧
      ((∃ command, result.2 = some command ∧ result.1.fattempt = info.fattempt + 1 ∧
          result.1.fattempt ≤ maxAttempts) ∨
        (result.2 = none ∧ result.1.fattempt = info.fattempt)) := by
  obtain ⟨path, -, hrun⟩ := bind_eq_ok.1 h
  by_cases hleft : info.fattempt < maxAttempts
  · obtain ⟨source, folder, filename, -, -, -, heq⟩ :=
      rucioDownloadWrapper_attempt hl hleft hw a
    obtain rfl := Except.ok.inj (heq.symm.trans hrun)
    refine ⟨rfl, ?_, Or.inl ⟨_, rfl, rfl, hleft⟩⟩
    cases hopened : a.opened
    · exact Or.inr ⟨rfl, rfl⟩
    · exact Or.inl (Or.inl ⟨rfl, rfl⟩)
  · have heq := rucioDownloadWrapper_giveUp hl (fun hc ↦ hleft hc.1) a
    obtain rfl := Except.ok.inj (heq.symm.trans hrun)
    exact ⟨rfl, Or.inl (Or.inr ⟨rfl, rfl, by show info.fattempt = _; omega⟩), Or.inr ⟨rfl, rfl⟩⟩

/-- **Where a passed job goes**: if it leaves it is settled, and if it stays it waits. -/
theorem downloaderHandleOutput_cases {info : RucioDownloadInfo} {leaves : Bool}
    (hp : info.Passed) (h : downloaderHandleOutput info = .ok leaves) :
    if leaves then info.Settled else info.Waiting := by
  rcases hp with hs | ⟨hd, hc⟩
  · -- both ways of being settled lead out
    have hleaves : leaves = true := by
      rcases hs with ⟨hd, -⟩ | ⟨hd, hc, -⟩
      · rw [downloaderHandleOutput, hd, if_pos rfl] at h
        obtain ⟨path, -, h⟩ := bind_eq_ok.1 h
        exact (Except.ok.inj h).symm
      · rw [downloaderHandleOutput, hd, hc, if_neg (by decide), if_neg (by decide)] at h
        exact (Except.ok.inj h).symm
    rw [hleaves, if_pos rfl]
    exact hs
  · have hleaves : leaves = false := by
      rw [downloaderHandleOutput, hd, hc, if_neg (by decide), if_pos (by decide)] at h
      obtain ⟨path, -, h⟩ := bind_eq_ok.1 h
      exact (Except.ok.inj h).symm
    rw [hleaves, if_neg (by decide), RucioDownloadInfo.Waiting, hc]
    decide

/-! ### Places that change by one job -/

section Lists

variable {α : Type*} {P : α → Prop} {l : List α} {y : α}

theorem forall_mem_concat (h : ∀ x ∈ l, P x) (hy : P y) : ∀ x ∈ l ++ [y], P x :=
  List.forall_mem_append.2 ⟨h, List.forall_mem_singleton.2 hy⟩

theorem forall_mem_eraseIdx (h : ∀ x ∈ l, P x) (i : ℕ) : ∀ x ∈ l.eraseIdx i, P x :=
  fun x hx ↦ h x (List.mem_of_mem_eraseIdx hx)

theorem forall_mem_set (h : ∀ x ∈ l, P x) (i : ℕ) (hy : P y) : ∀ x ∈ l.set i y, P x := by
  intro x hx
  rcases List.mem_or_eq_of_mem_set hx with hx | rfl
  · exact h x hx
  · exact hy

end Lists

/-! ### The invariant -/

/-- The invariant behind `Conserved`. -/
structure Conserving (servers : ServerMap) (orders : List RucioDownloadInfo) (p : Pipeline) :
    Prop where
  perm : (p.jobs.map fun job ↦ (job.info.order, job.id)).Perm
    (orders.map RucioDownloadInfo.order).zipIdx
  nextId : p.nextId = orders.length
  attempts : ∀ job ∈ p.jobs, job.info.fattempt = p.commandCount job.id ∧
    job.info.fattempt ≤ maxAttempts
  unused : ∀ id, p.nextId ≤ id → p.commandCount id = 0
  loaded : ∀ job ∈ p.jobs, job.info.Loaded servers
  placed : Placed p

/-- Whether a job is loaded does not depend on its score. -/
theorem loaded_of_order_eq {info info' : RucioDownloadInfo} (h : info'.order = info.order)
    (hl : info.Loaded servers) : info'.Loaded servers := by
  have hl' : info'.order.Loaded servers := by
    rw [h]
    exact ⟨hl.server, hl.config, hl.folder, hl.pos⟩
  exact ⟨hl'.server, hl'.config, hl'.folder, hl'.pos⟩

section Invariant

variable {orders : List RucioDownloadInfo}

/-- The numbers of the jobs are the first ones, each once. -/
theorem Conserving.ids_perm (h : Conserving servers orders p) :
    (p.jobs.map Job.id).Perm (List.range orders.length) := by
  have hsnd := h.perm.map Prod.snd
  rw [List.map_map, List.zipIdx_map_snd, List.length_map, List.range'_eq_map_range] at hsnd
  simpa [Function.comp_def] using hsnd

theorem Conserving.id_lt (h : Conserving servers orders p) (hjob : job ∈ p.jobs) :
    job.id < p.nextId := by
  rw [h.nextId, ← List.mem_range]
  exact h.ids_perm.mem_iff.1 (List.mem_map_of_mem hjob)

/-- No other job has the number of a job. -/
theorem Conserving.others (h : Conserving servers orders p) {others : List Job}
    (hp : p.jobs.Perm (job :: others)) : ∀ x ∈ others, x ∈ p.jobs ∧ x.id ≠ job.id := by
  have hnodup := h.ids_perm.nodup_iff.2 List.nodup_range
  rw [(hp.map Job.id).nodup_iff, List.map_cons, List.nodup_cons] at hnodup
  intro x hx
  refine ⟨hp.mem_iff.2 (List.mem_cons_of_mem _ hx), fun e ↦ hnodup.1 ?_⟩
  rw [← e]
  exact List.mem_map_of_mem hx

theorem commandCount_cons_of_ne {command : Str} {id : ℕ}
    (hq : q.commands = (job.id, command) :: p.commands) (hne : id ≠ job.id) :
    q.commandCount id = p.commandCount id := by
  rw [Pipeline.commandCount, hq, List.countP_cons_of_neg (by simpa using hne.symm),
    Pipeline.commandCount]

/-- A move keeps the invariant if the score of the job moves with its commands. -/
theorem Conserving.moved (h : Conserving servers orders p) (hm : Moved p q job job')
    (hnext : q.nextId = p.nextId)
    (hscore : (q.commands = p.commands ∧ job'.info.fattempt = job.info.fattempt) ∨
      ∃ command, q.commands = (job.id, command) :: p.commands ∧
        job'.info.fattempt = job.info.fattempt + 1 ∧ job'.info.fattempt ≤ maxAttempts)
    (hplaced : Placed q) : Conserving servers orders q := by
  obtain ⟨hid, horder, others, hp, hq⟩ := hm
  have hjob : job ∈ p.jobs := hp.mem_iff.2 (by simp)
  have hother := h.others hp
  have hcount : ∀ id, id ≠ job.id → q.commandCount id = p.commandCount id := by
    intro id hne
    rcases hscore with ⟨hc, -⟩ | ⟨command, hc, -, -⟩
    · rw [Pipeline.commandCount, hc, Pipeline.commandCount]
    · exact commandCount_cons_of_ne hc hne
  refine ⟨?_, hnext.trans h.nextId, ?_, ?_, ?_, hplaced⟩
  · have hpair : (job'.info.order, job'.id) = (job.info.order, job.id) := by rw [horder, hid]
    have hq' := hq.map fun x ↦ (x.info.order, x.id)
    have hp' := hp.map fun x ↦ (x.info.order, x.id)
    rw [List.map_cons, hpair] at hq'
    rw [List.map_cons] at hp'
    exact (hq'.trans hp'.symm).trans h.perm
  · intro x hx
    rcases List.mem_cons.1 (hq.mem_iff.1 hx) with rfl | hx
    · obtain ⟨heq, hle⟩ := h.attempts job hjob
      rcases hscore with ⟨hc, hatt⟩ | ⟨command, hc, hatt, hmax⟩
      · rw [Pipeline.commandCount, hc, hid, hatt]
        exact ⟨heq, hle⟩
      · rw [Pipeline.commandCount, hc, hid, List.countP_cons_of_pos (by simp), hatt]
        exact ⟨by rw [heq, Pipeline.commandCount], by omega⟩
    · obtain ⟨hxp, hne⟩ := hother x hx
      rw [hcount x.id hne]
      exact h.attempts x hxp
  · intro id hle
    have hlt := h.id_lt hjob
    rw [hcount id (by omega)]
    exact h.unused id (by omega)
  · intro x hx
    rcases List.mem_cons.1 (hq.mem_iff.1 hx) with rfl | hx
    · exact loaded_of_order_eq horder (h.loaded job hjob)
    · exact h.loaded x (hother x hx).1

/-- Appending a fresh job keeps the invariant. -/
theorem Conserving.append (h : Conserving servers orders p) {info : RucioDownloadInfo}
    (hinfo : info.Fresh servers) : Conserving servers (orders ++ [info]) (p.append info) := by
  -- the fresh job goes to the end of the first queue, the invariant counts it in front of all
  have hjobs : (p.append info).jobs.Perm (⟨p.nextId, info⟩ :: p.jobs) := by
    refine List.perm_iff_count.2 fun x ↦ ?_
    simp only [Pipeline.jobs, Pipeline.append, List.count_append, List.count_cons, List.count_nil]
    omega
  refine ⟨?_, ?_, ?_, fun id hle ↦ h.unused id (by simp only [Pipeline.append] at hle; omega),
    fun x hx ↦ ?_, ?_⟩
  -- the number the job gets is the position of its order
  · have hzip : ((orders ++ [info]).map RucioDownloadInfo.order).zipIdx =
        (orders.map RucioDownloadInfo.order).zipIdx ++ [(info.order, orders.length)] := by
      rw [List.map_append, List.zipIdx_append]
      simp
    have hmap := hjobs.map fun x ↦ (x.info.order, x.id)
    rw [List.map_cons, h.nextId] at hmap
    rw [hzip]
    exact (hmap.trans (h.perm.cons _)).trans (List.perm_append_singleton _ _).symm
  · simp [Pipeline.append, h.nextId]
  · intro x hx
    rcases List.mem_cons.1 (hjobs.mem_iff.1 hx) with rfl | hx
    · refine ⟨?_, by rw [hinfo.attempt]; exact Nat.zero_le _⟩
      rw [hinfo.attempt]
      exact (h.unused p.nextId le_rfl).symm
    · exact h.attempts x hx
  · rcases List.mem_cons.1 (hjobs.mem_iff.1 hx) with rfl | hx
    · exact hinfo.toLoaded
    · exact h.loaded x hx
  · have hwaiting : info.Waiting := by
      rw [RucioDownloadInfo.Waiting, hinfo.code]
      decide
    exact ⟨forall_mem_concat h.placed.toDownload hwaiting, h.placed.downloaders,
      h.placed.downloaded, h.placed.notifiers, h.placed.notified⟩

/-- **A worker's step keeps the invariant.** -/
theorem Conserving.work (h : Conserving servers orders p) {w : WorkerAction}
    (hstep : p.work servers w = some q) : Conserving servers orders q := by
  -- `moved` says once what a step keeps: the jobs up to their order, and the commands. What is left
  -- of each case is where the job stands now, and that it may stand there.
  have hpl := h.placed
  cases w with
  | downloaderGet i =>
    obtain ⟨job, hjob, rfl⟩ := Pipeline.downloaderGet_eq_some hstep
    have hwaiting := hpl.toDownload job (List.mem_of_getElem? hjob)
    exact h.moved (moved_downloaderGet hjob) rfl (Or.inl ⟨rfl, rfl⟩)
      ⟨forall_mem_eraseIdx hpl.toDownload i, forall_mem_concat hpl.downloaders hwaiting,
        hpl.downloaded, hpl.notifiers, hpl.notified⟩
  | downloaderProcess k a =>
    obtain ⟨job, result, hjob, hrun, rfl⟩ := Pipeline.downloaderProcess_eq_some hstep
    have hmem := List.mem_of_getElem? hjob
    have hmemJobs := mem_jobs.2 (Or.inr (Or.inl ⟨_, hmem, rfl⟩))
    obtain ⟨horder, hpassed, hscore⟩ := downloaderProcessInput_cases (h.loaded job hmemJobs)
      (hpl.downloaders _ hmem) (h.attempts job hmemJobs).2 hrun
    refine h.moved (moved_pass hjob horder) rfl ?_ ⟨hpl.toDownload,
      forall_mem_set hpl.downloaders k hpassed, hpl.downloaded, hpl.notifiers, hpl.notified⟩
    -- a pass runs a command and counts it, or does neither
    rcases hscore with ⟨command, hc, hatt, hmax⟩ | ⟨hc, hatt⟩
    · refine Or.inr ⟨command, ?_, hatt, hmax⟩
      show (result.2.map _).toList ++ p.commands = _
      rw [hc]
      rfl
    · refine Or.inl ⟨?_, hatt⟩
      show (result.2.map _).toList ++ p.commands = _
      rw [hc]
      rfl
  | downloaderHandle k =>
    obtain ⟨job, leaves, hjob, hrun, rfl⟩ := Pipeline.downloaderHandle_eq_some hstep
    have hrest := forall_mem_eraseIdx hpl.downloaders k
    have hcases := downloaderHandleOutput_cases (hpl.downloaders _ (List.mem_of_getElem? hjob)) hrun
    cases leaves with
    | true =>
      exact h.moved (moved_release hjob true) rfl (Or.inl ⟨rfl, rfl⟩)
        ⟨hpl.toDownload, hrest, forall_mem_concat hpl.downloaded hcases, hpl.notifiers,
          hpl.notified⟩
    | false =>
      exact h.moved (moved_release hjob false) rfl (Or.inl ⟨rfl, rfl⟩)
        ⟨forall_mem_concat hpl.toDownload hcases, hrest, hpl.downloaded, hpl.notifiers,
          hpl.notified⟩
  | notifierGet i =>
    obtain ⟨job, hjob, rfl⟩ := Pipeline.notifierGet_eq_some hstep
    have hsettled := hpl.downloaded job (List.mem_of_getElem? hjob)
    exact h.moved (moved_notifierGet hjob) rfl (Or.inl ⟨rfl, rfl⟩)
      ⟨hpl.toDownload, hpl.downloaders, forall_mem_eraseIdx hpl.downloaded i,
        forall_mem_concat hpl.notifiers hsettled, hpl.notified⟩
  | notifierProcess k =>
    obtain ⟨job, hjob, rfl⟩ := Pipeline.notifierProcess_eq_some hstep
    have hsettled := hpl.notifiers (.input job) (List.mem_of_getElem? hjob)
    exact h.moved (moved_notifierProcess hjob) rfl (Or.inl ⟨rfl, rfl⟩)
      ⟨hpl.toDownload, hpl.downloaders, hpl.downloaded, forall_mem_set hpl.notifiers k hsettled,
        hpl.notified⟩
  | notifierHandle k =>
    obtain ⟨job, hjob, rfl⟩ := Pipeline.notifierHandle_eq_some hstep
    have hsettled := hpl.notifiers _ (List.mem_of_getElem? hjob)
    exact h.moved (moved_notifierHandle hjob) rfl (Or.inl ⟨rfl, rfl⟩)
      ⟨hpl.toDownload, hpl.downloaders, hpl.downloaded, forall_mem_eraseIdx hpl.notifiers k,
        forall_mem_concat hpl.notified hsettled⟩

/-- The empty pipeline. -/
theorem Conserving.start : Conserving servers [] {} := by
  refine ⟨by simp [Pipeline.jobs], rfl, ?_, fun id _ ↦ rfl, ?_, ⟨?_, ?_, ?_, ?_, ?_⟩⟩ <;>
    simp [Pipeline.jobs]

/-- The invariant says that the jobs are conserved. -/
theorem Conserving.conserved (h : Conserving servers orders p) :
    Conserved (orders.map RucioDownloadInfo.order) p := by
  refine ⟨fun id hid ↦ ?_, fun job hjob ↦ ?_, h.attempts, h.placed.downloaded⟩
  · have hcount : p.occurrences id = (p.jobs.map Job.id).count id := by
      simp only [Pipeline.occurrences, Pipeline.jobs, List.count, List.countP_map,
        List.countP_append, List.map_append, Function.comp_def]
    rw [List.length_map] at hid
    rw [hcount, h.ids_perm.count_eq, List.count_eq_one_of_mem List.nodup_range
      (List.mem_range.2 hid)]
  · have hmem := h.perm.mem_iff.1 (List.mem_map_of_mem hjob)
    exact List.mem_zipIdx_iff_getElem?.1 hmem

end Invariant

/-! ### Every run -/

theorem appended_append (as bs : List PipelineAction) :
    appended (as ++ bs) = appended as ++ appended bs := by
  induction as with
  | nil => rfl
  | cons a as ih => cases a <;> simp [appended, ih]

/-- What an admissible run appends is fresh. -/
theorem fresh_of_mem_appended {actions : List PipelineAction} {info : RucioDownloadInfo}
    (hfresh : ∀ a ∈ actions, a.Admissible servers) (h : info ∈ appended actions) :
    info.Fresh servers := by
  induction actions with
  | nil => simp [appended] at h
  | cons a as ih =>
    have hrest := ih fun b hb ↦ hfresh b (List.mem_cons_of_mem _ hb)
    cases a with
    | append info' =>
      rcases List.mem_cons.1 h with rfl | h
      · exact hfresh (.append info) (by simp)
      · exact hrest h
    | work w => exact hrest h

/-- A fresh job is its own order. -/
theorem order_eq_of_fresh {info : RucioDownloadInfo} (h : info.Fresh servers) :
    info.order = info := by
  obtain ⟨-, hcode, hattempt, hdown⟩ := h
  cases info
  simp_all [RucioDownloadInfo.order]

theorem map_order_of_fresh {orders : List RucioDownloadInfo}
    (h : ∀ info ∈ orders, info.Fresh servers) : orders.map RucioDownloadInfo.order = orders := by
  rw [List.map_congr_left fun info hinfo ↦ order_eq_of_fresh (h info hinfo)]
  exact List.map_id' _

/-- The invariant holds behind every admissible run. -/
theorem conserving_of_run {actions : List PipelineAction}
    (hfresh : ∀ a ∈ actions, a.Admissible servers)
    (hrun : Transition.exec (Pipeline.step servers) {} actions = some p) :
    Conserving servers (appended actions) p := by
  refine @Transition.run_induction _ _ (Pipeline.step servers) {} (·.Admissible servers)
    (fun as p ↦ Conserving servers (appended as) p) Conserving.start ?_ actions hfresh p hrun
  intro as a s t hs ha hstep
  rw [appended_append]
  cases a with
  | append info =>
    obtain rfl := Option.some.inj hstep
    exact hs.append ha
  | work w =>
    rw [appended, appended, List.append_nil]
    exact hs.work hstep

/-- **Download job conservation.** Behind every run in which only fresh jobs of loaded servers are
appended, every appended job is in exactly one place, its score is the number of commands run for
it and at most `maxAttempts`, and the jobs in `downloaded` are settled. -/
theorem download_job_conservation {actions : List PipelineAction}
    (hfresh : ∀ a ∈ actions, a.Admissible servers)
    (hrun : Transition.exec (Pipeline.step servers) {} actions = some p) :
    Conserved (appended actions) p := by
  have hinv := conserving_of_run hfresh hrun
  have horder : (appended actions).map RucioDownloadInfo.order = appended actions :=
    map_order_of_fresh fun info hinfo ↦ fresh_of_mem_appended hfresh hinfo
  exact horder ▸ hinv.conserved

/-- One download that needs two attempts: the file is missing after the first pass. -/
theorem download_job_conservation_second_attempt :
    Conserved [sampleJob ['n']]
      { downloaded := [⟨0, ((sampleJob ['n']).attempted false).attempted true⟩]
        nextId := 1
        commands := List.replicate 2 (0, downloadCommand
          (configCopyPath sampleServer.configFilePath sampleServer.tempConfigFolder ['j'])
          (sampleJob ['n']).cacheDir ['u', ':', 'n']) } :=
  @download_job_conservation sampleServers _
    [.append (sampleJob ['n']), .work (.downloaderGet 0),
      .work (.downloaderProcess 0 { sampleAttempt with opened := false }),
      .work (.downloaderHandle 0), .work (.downloaderGet 0),
      .work (.downloaderProcess 0 sampleAttempt), .work (.downloaderHandle 0)]
    (by
      have hfresh : (sampleJob ['n']).Fresh sampleServers := fresh_sampleJob ['n']
      simpa [PipelineAction.Admissible] using hfresh)
    (by decide +kernel)

/-! ### Nobody gets stuck -/

/-- **No step of a busy worker fails.** In every state of such a run each worker can go on with the
job it holds, whatever the operating system answers: no exception ends a worker, so no job is lost
in its hands. -/
theorem worker_never_stuck {actions : List PipelineAction}
    (hfresh : ∀ a ∈ actions, a.Admissible servers)
    (hrun : Transition.exec (Pipeline.step servers) {} actions = some p) (k : ℕ) :
    (∀ job, p.downloaders[k]? = some (.input job) →
      ∀ a, (p.downloaderProcess servers k a).isSome) ∧
    (∀ job, p.downloaders[k]? = some (.output job) → (p.downloaderHandle k).isSome) ∧
    (∀ job, p.notifiers[k]? = some (.input job) → (p.notifierProcess k).isSome) ∧
    (∀ job, p.notifiers[k]? = some (.output job) → (p.notifierHandle k).isSome) := by
  have hinv := conserving_of_run hfresh hrun
  -- what a step could fail on is the file name of the job: a loaded job has one
  have hpath : ∀ job ∈ p.jobs, ∃ path, job.info.fullCachePath = .ok path := by
    intro job hjob
    obtain ⟨filename, hname⟩ := exists_filename (hinv.loaded job hjob).pos
    exact ⟨_, by rw [RucioDownloadInfo.fullCachePath, hname, ok_bind, pure_eq_ok]⟩
  refine ⟨fun job hk a ↦ ?_, fun job hk ↦ ?_, fun job hk ↦ ?_, fun job hk ↦ ?_⟩
  · have hmem := mem_jobs.2 (Or.inr (Or.inl ⟨_, List.mem_of_getElem? hk, rfl⟩))
    obtain ⟨path, hp⟩ := hpath job hmem
    have hl := hinv.loaded job hmem
    have hw : job.info.Waiting := hinv.placed.downloaders _ (List.mem_of_getElem? hk)
    rw [Pipeline.downloaderProcess, hk]
    show (Option.map _ _).isSome = true
    rw [downloaderProcessInput, hp, ok_bind]
    -- with attempts left the pass runs the command, behind them it gives up: both return
    by_cases hleft : job.info.fattempt < maxAttempts
    · obtain ⟨source, folder, filename, -, -, -, heq⟩ := rucioDownloadWrapper_attempt hl hleft hw a
      rw [heq]
      rfl
    · rw [rucioDownloadWrapper_giveUp hl (fun hc ↦ hleft hc.1) a]
      rfl
  · have hmem := mem_jobs.2 (Or.inr (Or.inl ⟨_, List.mem_of_getElem? hk, rfl⟩))
    obtain ⟨path, hp⟩ := hpath job hmem
    rw [Pipeline.downloaderHandle, hk]
    show (Option.map _ _).isSome = true
    rw [downloaderHandleOutput, hp]
    simp only [ok_bind]
    split_ifs <;> rfl
  · have hmem := mem_jobs.2 (Or.inr (Or.inr (Or.inr (Or.inl ⟨_, List.mem_of_getElem? hk, rfl⟩))))
    obtain ⟨path, hp⟩ := hpath job hmem
    rw [Pipeline.notifierProcess, hk]
    show (Option.map _ _).isSome = true
    rw [RucioDownloadInfo.print, hp]
    simp only [ok_bind]
    split_ifs <;> rfl
  · rw [Pipeline.notifierHandle, hk]
    rfl

end FusePosix
