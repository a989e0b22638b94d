import FusePosix.Download.Job
import FusePosix.Lib.Transition
import Mathlib.Data.List.Perm.Basic

/-!
# The download pipeline

Two queues and two pools of workers. A downloader takes a job from `toDownload`, makes one pass over
it, and either hands it on to `downloaded` (success, or too many attempts) or puts it back into
`toDownload`. A notifier takes a job from `downloaded`, prints its result and lets it go.

A worker holds one job from the moment it takes it until it lets it go, first as its input and then
as its output (`Held`). The pools are rescaled by load, so the number of workers is not fixed: the
model lists the busy ones only, and any number of idle ones may start at any time. Of the queues it
is assumed that `append` adds one copy of an item and that `poll_and_pinch` removes one item, not
necessarily the oldest.

Each worker step is one atomic action. Jobs are numbered in the order in which they are appended,
and `commands` records every command line handed to `system()` with the number of its job; neither
influences a step.

A pass that does not find its file calls `fclose` with a null pointer. `Pipeline.step` takes this to
return. What a C library does is a parameter of `Pipeline.stepOn`, where the process may end with
such a pass; the GNU C library ends it.
-/

namespace FusePosix

open Transition

/-- A job on its way through the pipeline. -/
structure Job where
  /-- The number of the job, for the record only. -/
  id : ℕ
  info : RucioDownloadInfo
  deriving DecidableEq, Repr

/-- What a busy worker holds. -/
inductive Held where
  /-- The result of `get_input`. -/
  | input (job : Job)
  /-- The result of `process_input`. -/
  | output (job : Job)
  deriving DecidableEq, Repr

/-- The job a worker holds. -/
@[simp] def Held.job : Held → Job
  | .input job => job
  | .output job => job

/-- The pipeline between two steps. -/
structure Pipeline where
  toDownload : List Job := []
  /-- The busy downloaders. -/
  downloaders : List Held := []
  downloaded : List Job := []
  /-- The busy notifiers. -/
  notifiers : List Held := []
  /-- The jobs the notifiers have let go. -/
  notified : List Job := []
  /-- The number the next job gets. -/
  nextId : ℕ := 0
  /-- The commands run so far, with the numbers of their jobs, latest first. -/
  commands : List (ℕ × Str) := []
  deriving DecidableEq, Repr

/-! ### The stages -/

/-- `rucio_downloader::process_input`: one pass over the job. -/
def downloaderProcessInput (servers : ServerMap) (a : Attempt) (input : RucioDownloadInfo) :
    Except Fault (RucioDownloadInfo × Option Str) := do
  -- the log line
  let _ ← input.fullCachePath
  rucioDownloadWrapper servers a input

/-- `rucio_downloader::handle_output`: whether the job leaves for `downloaded`, else it goes back to
`toDownload`. -/
def downloaderHandleOutput (output : RucioDownloadInfo) : Except Fault Bool := do
  if output.fdownloaded then
    let _ ← output.fullCachePath
    return true
  else if output.freturnCode ≠ tooManyAttempts then
    let _ ← output.fullCachePath
    return false
  else
    return true

namespace Pipeline

/-- `append_new_download`. -/
def append (p : Pipeline) (info : RucioDownloadInfo) : Pipeline :=
  { p with toDownload := p.toDownload ++ [⟨p.nextId, info⟩], nextId := p.nextId + 1 }

/-- An idle downloader takes item `i` of `toDownload`. -/
def downloaderGet (p : Pipeline) (i : ℕ) : Option Pipeline :=
  (p.toDownload[i]?).map fun job ↦
    { p with toDownload := p.toDownload.eraseIdx i, downloaders := p.downloaders ++ [.input job] }

/-- The job after a pass, in the hands of the busy downloader `k`. -/
def pass (p : Pipeline) (k : ℕ) (job : Job) (result : RucioDownloadInfo × Option Str) : Pipeline :=
  { p with
    downloaders := p.downloaders.set k (.output ⟨job.id, result.1⟩)
    commands := (result.2.map fun command ↦ (job.id, command)).toList ++ p.commands }

/-- The busy downloader `k` makes a pass over its job. -/
def downloaderProcess (servers : ServerMap) (p : Pipeline) (k : ℕ) (a : Attempt) :
    Option Pipeline :=
  match p.downloaders[k]? with
  | some (.input job) => ((downloaderProcessInput servers a job.info).toOption).map (p.pass k job)
  | _ => none

/-- The job goes where `handle_output` sends it. -/
def release (p : Pipeline) (k : ℕ) (job : Job) (leaves : Bool) : Pipeline :=
  if leaves then
    { p with downloaders := p.downloaders.eraseIdx k, downloaded := p.downloaded ++ [job] }
  else { p with downloaders := p.downloaders.eraseIdx k, toDownload := p.toDownload ++ [job] }

/-- The busy downloader `k` lets its job go. -/
def downloaderHandle (p : Pipeline) (k : ℕ) : Option Pipeline :=
  match p.downloaders[k]? with
  | some (.output job) => ((downloaderHandleOutput job.info).toOption).map (p.release k job)
  | _ => none

/-- An idle notifier takes item `i` of `downloaded`. -/
def notifierGet (p : Pipeline) (i : ℕ) : Option Pipeline :=
  (p.downloaded[i]?).map fun job ↦
    { p with downloaded := p.downloaded.eraseIdx i, notifiers := p.notifiers ++ [.input job] }

/-- The busy notifier `k` prints the result of its job. -/
def notifierProcess (p : Pipeline) (k : ℕ) : Option Pipeline :=
  match p.notifiers[k]? with
  | some (.input job) => (job.info.print.toOption).map fun _ ↦
      { p with notifiers := p.notifiers.set k (.output job) }
  | _ => none

/-- The busy notifier `k` lets its job go: there is no output queue. -/
def notifierHandle (p : Pipeline) (k : ℕ) : Option Pipeline :=
  match p.notifiers[k]? with
  | some (.output job) =>
      some { p with notifiers := p.notifiers.eraseIdx k, notified := p.notified ++ [job] }
  | _ => none

end Pipeline

/-- One step of a worker. -/
inductive WorkerAction where
  | downloaderGet (i : ℕ)
  | downloaderProcess (k : ℕ) (a : Attempt)
  | downloaderHandle (k : ℕ)
  | notifierGet (i : ℕ)
  | notifierProcess (k : ℕ)
  | notifierHandle (k : ℕ)

/-- The pipeline after a worker's step, if the worker can take it. -/
def Pipeline.work (servers : ServerMap) (p : Pipeline) : WorkerAction → Option Pipeline
  | .downloaderGet i => p.downloaderGet i
  | .downloaderProcess k a => p.downloaderProcess servers k a
  | .downloaderHandle k => p.downloaderHandle k
  | .notifierGet i => p.notifierGet i
  | .notifierProcess k => p.notifierProcess k
  | .notifierHandle k => p.notifierHandle k

/-- One step of the pipeline: a new job from outside, or a worker. -/
inductive PipelineAction where
  | append (info : RucioDownloadInfo)
  | work (w : WorkerAction)

/-- The pipeline after an action, if it is enabled. -/
def Pipeline.step (servers : ServerMap) (p : Pipeline) : PipelineAction → Option Pipeline
  | .append info => some (p.append info)
  | .work w => p.work servers w

/-! ### Null pointers -/

/-- Whether the pass of the busy downloader `k` makes an attempt, so that it comes to `fopen`. -/
def Pipeline.attempts (servers : ServerMap) (p : Pipeline) (k : ℕ) : Bool :=
  match p.downloaders[k]? with
  | some (.input job) => serverExists servers job.info.fserverName &&
      decide (job.info.fattempt < maxAttempts) && decide (job.info.freturnCode ≠ settingsNotFound)
  | _ => false

/-- Whether the process survives an action. `nullCloses` says whether `fclose` returns from a null
pointer. -/
def Pipeline.survives (nullCloses : Bool) (servers : ServerMap) (p : Pipeline) :
    PipelineAction → Bool
  | .work (.downloaderProcess k a) => nullCloses || a.opened || !p.attempts servers k
  | .work (.downloaderGet _) | .work (.downloaderHandle _) | .work (.notifierGet _)
  | .work (.notifierProcess _) | .work (.notifierHandle _) | .append _ => true

/-- The pipeline after an action, if it is enabled and the process survives it. -/
def Pipeline.stepOn (nullCloses : Bool) (servers : ServerMap) :
    Pipeline → PipelineAction → Option Pipeline :=
  guarded (Pipeline.step servers) (Pipeline.survives nullCloses servers)

/-! ### What a worker's step can do

Every step moves one job: it takes it out of one place and puts it, changed by at most one pass,
into another.
-/

section Perm

variable {α β : Type*}

/-- Taking an item out of a list. -/
theorem perm_cons_eraseIdx {l : List α} {i : ℕ} {x : α} (h : l[i]? = some x) :
    l.Perm (x :: l.eraseIdx i) := by
  obtain ⟨hi, rfl⟩ := List.getElem?_eq_some_iff.1 h
  exact (List.getElem_cons_eraseIdx_perm hi).symm

/-- Exchanging an item of a list. -/
theorem set_perm_cons_eraseIdx_of_getElem? {l : List α} {i : ℕ} {x : α} (h : l[i]? = some x)
    (y : α) : (l.set i y).Perm (y :: l.eraseIdx i) :=
  List.set_perm_cons_eraseIdx (List.getElem?_eq_some_iff.1 h).1 y

end Perm

namespace Pipeline

variable {servers : ServerMap} {p q : Pipeline}

theorem downloaderGet_eq_some {i : ℕ} (h : p.downloaderGet i = some q) :
    ∃ job, p.toDownload[i]? = some job ∧
      { p with toDownload := p.toDownload.eraseIdx i,
               downloaders := p.downloaders ++ [.input job] } = q :=
  Option.map_eq_some_iff.1 h

theorem downloaderProcess_eq_some {k : ℕ} {a : Attempt}
    (h : p.downloaderProcess servers k a = some q) :
    ∃ job result, p.downloaders[k]? = some (.input job) ∧
      downloaderProcessInput servers a job.info = .ok result ∧ p.pass k job result = q := by
  rw [downloaderProcess] at h
  split at h
  · rename_i job hjob
    obtain ⟨result, hresult, hq⟩ := map_toOption_eq_some h
    exact ⟨job, result, hjob, hresult, hq⟩
  · simp at h

theorem downloaderHandle_eq_some {k : ℕ} (h : p.downloaderHandle k = some q) :
    ∃ job leaves, p.downloaders[k]? = some (.output job) ∧
      downloaderHandleOutput job.info = .ok leaves ∧ p.release k job leaves = q := by
  rw [downloaderHandle] at h
  split at h
  · rename_i job hjob
    obtain ⟨leaves, hleaves, hq⟩ := map_toOption_eq_some h
    exact ⟨job, leaves, hjob, hleaves, hq⟩
  · simp at h

theorem notifierGet_eq_some {i : ℕ} (h : p.notifierGet i = some q) :
    ∃ job, p.downloaded[i]? = some job ∧
      { p with downloaded := p.downloaded.eraseIdx i,
               notifiers := p.notifiers ++ [.input job] } = q :=
  Option.map_eq_some_iff.1 h

theorem notifierProcess_eq_some {k : ℕ} (h : p.notifierProcess k = some q) :
    ∃ job, p.notifiers[k]? = some (.input job) ∧
      { p with notifiers := p.notifiers.set k (.output job) } = q := by
  rw [notifierProcess] at h
  split at h
  · rename_i job hjob
    obtain ⟨text, -, hq⟩ := Option.map_eq_some_iff.1 h
    exact ⟨job, hjob, hq⟩
  · simp at h

theorem notifierHandle_eq_some {k : ℕ} (h : p.notifierHandle k = some q) :
    ∃ job, p.notifiers[k]? = some (.output job) ∧
      { p with notifiers := p.notifiers.eraseIdx k, notified := p.notified ++ [job] } = q := by
  rw [notifierHandle] at h
  split at h
  · rename_i job hjob
    exact ⟨job, hjob, Option.some.inj h⟩
  · simp at h

end Pipeline

end FusePosix
