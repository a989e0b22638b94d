import FusePosix.Download.Pipeline

/-!
# Live jobs

A job is **live** as long as it waits for a downloader or is in the hands of one. What the rest of
the program cares about is which orders are live: the order of a job fixes the server, the DID and
the file it will write, and no pass changes it (`order_of_rucioDownloadWrapper`, for every job and
whatever goes wrong).

Accordingly a worker's step does one of two things to the live jobs (`live_work`). It keeps their
orders, or it hands one job over to `downloaded` and keeps the others.
-/

namespace FusePosix

/-- The jobs in `toDownload` and in the hands of the downloaders. -/
def Pipeline.live (p : Pipeline) : List Job :=
  p.toDownload ++ p.downloaders.map Held.job

/-- The live orders. -/
def Pipeline.liveOrders (p : Pipeline) : List RucioDownloadInfo :=
  p.live.map fun job ↦ job.info.order

/-- The job a worker's step hands over to `downloaded`, if it does. -/
def Pipeline.handsOver (p : Pipeline) : WorkerAction → Option Job
  | .downloaderHandle k =>
    match p.downloaders[k]? with
    | some (.output job) => if downloaderHandleOutput job.info = .ok true then some job else none
    | _ => none
  | _ => none

/-! ### Orders -/

/-- **A pass keeps the order.** -/
theorem order_of_rucioDownloadWrapper {servers : ServerMap} {a : Attempt} {info : RucioDownloadInfo}
    {result : RucioDownloadInfo × Option Str}
    (h : rucioDownloadWrapper servers a info = .ok result) : result.1.order = info.order := by
  obtain ⟨output, command⟩ := result
  cases passEnds_of_eq_ok h with
  | unloaded => rfl
  | attempted => rfl
  | givenUp => rfl

theorem order_of_downloaderProcessInput {servers : ServerMap} {a : Attempt}
    {info : RucioDownloadInfo} {result : RucioDownloadInfo × Option Str}
    (h : downloaderProcessInput servers a info = .ok result) : result.1.order = info.order := by
  obtain ⟨path, -, hrun⟩ := bind_eq_ok.1 h
  exact order_of_rucioDownloadWrapper hrun

/-! ### Steps -/

section Steps

variable {servers : ServerMap} {p q : Pipeline}

theorem live_append (info : RucioDownloadInfo) :
    (p.append info).live.Perm (⟨p.nextId, info⟩ :: p.live) := by
  rw [Pipeline.live, Pipeline.append, Pipeline.live, List.append_assoc, List.singleton_append]
  exact List.perm_middle

/-- Taking a job changes nothing about which jobs are live. -/
theorem live_downloaderGet {i : ℕ} (h : p.downloaderGet i = some q) : q.live.Perm p.live := by
  obtain ⟨job, hjob, rfl⟩ := Pipeline.downloaderGet_eq_some h
  have hout := perm_cons_eraseIdx hjob
  rw [Pipeline.live, Pipeline.live, List.map_append, List.map_singleton, Held.job,
    ← List.append_assoc]
  refine List.Perm.trans ?_ (hout.symm.append_right _)
  exact List.perm_append_singleton _ _

/-- A pass keeps the live orders. -/
theorem liveOrders_downloaderProcess {k : ℕ} {a : Attempt}
    (h : p.downloaderProcess servers k a = some q) : q.liveOrders.Perm p.liveOrders := by
  obtain ⟨job, result, hjob, hrun, rfl⟩ := Pipeline.downloaderProcess_eq_some h
  have hset := set_perm_cons_eraseIdx_of_getElem? hjob (Held.output ⟨job.id, result.1⟩)
  have hold := (perm_cons_eraseIdx hjob).symm
  have horder := order_of_downloaderProcessInput hrun
  rw [Pipeline.liveOrders, Pipeline.liveOrders, Pipeline.live, Pipeline.live, List.map_append,
    List.map_append, List.map_map, List.map_map]
  refine List.Perm.append_left _ ?_
  have hnew := hset.map ((fun job : Job ↦ job.info.order) ∘ Held.job)
  have hprev := hold.map ((fun job : Job ↦ job.info.order) ∘ Held.job)
  rw [List.map_cons] at hprev hnew
  refine hnew.trans ?_
  rw [show ((fun job : Job ↦ job.info.order) ∘ Held.job) (.output ⟨job.id, result.1⟩) =
    ((fun job : Job ↦ job.info.order) ∘ Held.job) (.input job) from horder]
  exact hprev

/-- Letting a job go keeps it live, or hands it over. -/
theorem live_downloaderHandle {k : ℕ} (h : p.downloaderHandle k = some q) :
    (p.handsOver (.downloaderHandle k) = none ∧ q.live.Perm p.live) ∨
      ∃ job, p.handsOver (.downloaderHandle k) = some job ∧ p.live.Perm (job :: q.live) := by
  obtain ⟨job, leaves, hjob, hrun, rfl⟩ := Pipeline.downloaderHandle_eq_some h
  have hout := (perm_cons_eraseIdx hjob).symm.map Held.job
  rw [List.map_cons, Held.job] at hout
  have hover : p.handsOver (.downloaderHandle k) =
      if downloaderHandleOutput job.info = .ok true then some job else none := by
    rw [Pipeline.handsOver, hjob]
  rw [hrun] at hover
  cases leaves with
  | true =>
    refine Or.inr ⟨job, hover, ?_⟩
    exact (hout.symm.append_left _).trans List.perm_middle
  | false =>
    refine Or.inl ⟨hover, ?_⟩
    show ((p.toDownload ++ [job]) ++ (p.downloaders.eraseIdx k).map Held.job).Perm _
    rw [List.append_assoc, List.singleton_append]
    exact hout.append_left _

/-- **A worker's step keeps the live orders, or hands one job over and keeps the others.** -/
theorem live_work {w : WorkerAction} (h : p.work servers w = some q) :
    (p.handsOver w = none ∧ q.liveOrders.Perm p.liveOrders) ∨
      ∃ job, p.handsOver w = some job ∧ p.live.Perm (job :: q.live) := by
  cases w with
  | downloaderGet i => exact Or.inl ⟨rfl, (live_downloaderGet h).map _⟩
  | downloaderProcess k a => exact Or.inl ⟨rfl, liveOrders_downloaderProcess h⟩
  | downloaderHandle k =>
    rcases live_downloaderHandle h with ⟨hnone, hperm⟩ | hover
    · exact Or.inl ⟨hnone, hperm.map _⟩
    · exact Or.inr hover
  | notifierGet i =>
    obtain ⟨job, -, rfl⟩ := Pipeline.notifierGet_eq_some h
    exact Or.inl ⟨rfl, List.Perm.refl _⟩
  | notifierProcess k =>
    obtain ⟨job, -, rfl⟩ := Pipeline.notifierProcess_eq_some h
    exact Or.inl ⟨rfl, List.Perm.refl _⟩
  | notifierHandle k =>
    obtain ⟨job, -, rfl⟩ := Pipeline.notifierHandle_eq_some h
    exact Or.inl ⟨rfl, List.Perm.refl _⟩

end Steps

end FusePosix
