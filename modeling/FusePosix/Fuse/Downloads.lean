import FusePosix.Download.Outcome
import FusePosix.Fuse.Influence

/-!
# From a read to its notification

A `rucio_read` of a file that is not in the file cache builds a job and hands it over to the
pipeline. This file says what becomes of it in the running system, where the reads of all users are
under way at the same time and the pipeline works between their steps.

What a step does to the pipeline is said once (`PipelineStep`): nothing, or it hands the job of a
read over, or it is a worker's. With the rules of the pipeline this gives the account of a whole run
(`reads_notified`): one job for each read that has handed one over, for its server, its DID and its
user, and with the outcome it would have alone; and no worker works for anything else.

As for the pipeline alone, the process may end with an attempt that does not get its file
(`Session.stepOn`). Each access of a read to a shared table is atomic here, as in `Session.step`;
nothing is claimed about accesses that are not.
-/

namespace FusePosix

open Transition

/-! ### What is handed over -/

/-- The job that a read builds. -/
def ReadCall.order (servers : ServerMap) (call : ReadCall) : Except Fault RucioDownloadInfo := do
  let did ← getDid call.path
  RucioDownloadInfo.ofPath servers did call.path call.caller.username

/-- The call whose job is handed over in a step. -/
def Session.handsOver (s : Session) : SessionAction → Option ReadCall
  | .continues k => s.readers[k]?.bind fun r ↦
      if r.point = .appendNewDownload then some r.call else none
  | .begins _ | .background _ => none

/-- The calls whose jobs are handed over in a run, in order. -/
def handedOver (s : Session) (actions : List SessionAction) : List ReadCall :=
  (seen Session.step (fun _ _ ↦ false) Session.handsOver s actions).filterMap id

/-- What an action costs: one step of a worker. -/
def SessionAction.cost : SessionAction → ℕ
  | .background (.work _) => 1
  | .background (.getattr ..) | .background (.readdir ..) | .background (.loginEnds ..)
  | .begins _ | .continues _ => 0

/-- The world answers a pass as it is foreseen for this attempt of this job. -/
def Session.Foreseen (opens : ℕ → ℕ → Bool) (s : Session) : SessionAction → Prop
  | .background (.work w) => s.mount.pipeline.Foreseen opens (.work w)
  | .background (.getattr ..) | .background (.readdir ..) | .background (.loginEnds ..)
  | .begins _ | .continues _ => True

instance (opens : ℕ → ℕ → Bool) (s : Session) (a : SessionAction) :
    Decidable (s.Foreseen opens a) :=
  match a with
  | .background (.work w) =>
      inferInstanceAs (Decidable (s.mount.pipeline.Foreseen opens (.work w)))
  | .background (.getattr ..) | .background (.readdir ..) | .background (.loginEnds ..)
  | .begins _ | .continues _ => isTrue trivial

/-- Whether the process survives a step. -/
def Session.survives (nullCloses : Bool) (s : Session) : SessionAction → Bool
  | .background (.work w) =>
      s.mount.pipeline.survives nullCloses s.mount.rest.servers (.work w)
  | .background (.getattr ..) | .background (.readdir ..) | .background (.loginEnds ..)
  | .begins _ | .continues _ => true

/-- The session after a step, if the process survives it. -/
def Session.stepOn (nullCloses : Bool) : Session → SessionAction → Option Session :=
  guarded Session.step (Session.survives nullCloses)

/-- Every read under way wants the DID of its path. -/
def Session.Wanting (s : Session) : Prop :=
  ∀ r ∈ s.readers, getDid r.call.path = .ok r.wanted.did

/-! ### One step -/

/-- What a step does to the pipeline. -/
inductive PipelineStep (servers : ServerMap) (s : Session) (a : SessionAction) (s' : Session) : Prop
  | still (hcall : s.handsOver a = none) (hcost : a.cost = 0)
      (hpipeline : s'.mount.pipeline = s.mount.pipeline)
  | handed (call : ReadCall) (info : RucioDownloadInfo) (hcall : s.handsOver a = some call)
      (hcost : a.cost = 0) (hinfo : call.order servers = .ok info)
      (hpipeline : s'.mount.pipeline = s.mount.pipeline.append info)
  | worked (w : WorkerAction) (ha : a = .background (.work w))
      (hpipeline : s.mount.pipeline.work servers w = some s'.mount.pipeline)

section Steps

variable {servers : ServerMap} {s s' : Session} {a : SessionAction}

/-- What a step is survived by depends on the settings only. -/
theorem survives_congr {servers' : ServerMap} (h : SameSettings servers servers')
    {nullCloses : Bool} {p : Pipeline} {w : WorkerAction} :
    p.survives nullCloses servers' (.work w) = p.survives nullCloses servers (.work w) := by
  cases w with
  | downloaderProcess k a =>
    have hattempts : p.attempts servers' k = p.attempts servers k := by
      rw [Pipeline.attempts, Pipeline.attempts]
      split
      · rw [h.serverExists]
      · rfl
    rw [Pipeline.survives, Pipeline.survives, hattempts]
  | downloaderGet | downloaderHandle | notifierGet | notifierProcess | notifierHandle => rfl

theorem handsOver_of_ne {k : ℕ} {r : Reader} (hr : s.readers[k]? = some r)
    (hpoint : r.point ≠ .appendNewDownload) : s.handsOver (.continues k) = none := by
  rw [Session.handsOver, hr, Option.bind_some, if_neg hpoint]

/-- **What a step does to the pipeline.** -/
theorem pipelineStep_of_step (hs : SameSettings servers s.mount.rest.servers) (hw : s.Wanting)
    (h : s.step a = some s') : PipelineStep servers s a s' := by
  cases a with
  | begins call =>
    obtain ⟨checked, rest, -, rfl⟩ := begins_eq_some h
    exact .still rfl rfl (by rw [mount_enter])
  | continues k =>
    obtain ⟨r, progress, m, hr, hread, rfl⟩ := continues_eq_some h
    have hmount := mount_settle s k progress m
    cases hread with
    | appended info hpoint hinfo =>
      refine .handed r.call info ?_ rfl ?_ (by rw [hmount]; rfl)
      · rw [Session.handsOver, hr, Option.bind_some, if_pos hpoint]
      · rw [ReadCall.order, hw r (List.mem_of_getElem? hr), ok_bind, ← ofPath_congr hs]
        exact hinfo
    | cached result m hpoint hcached hread =>
      refine .still (handsOver_of_ne hr (by simp [hpoint])) rfl ?_
      rw [hmount, pipeline_readFile hread]
    | notCached hpoint | flagged hpoint | notFlagged hpoint =>
      exact .still (handsOver_of_ne hr (by simp [hpoint])) rfl (by rw [hmount])
    | started hpoint =>
      exact .still (handsOver_of_ne hr (by simp [hpoint])) rfl (by rw [hmount]; rfl)
  | background b =>
    obtain ⟨m, hm, rfl⟩ := background_eq_some h
    rcases background_cases hm with ⟨hb, rest, rfl⟩ | ⟨w, pipeline, rfl, hwork, rfl⟩
    · refine .still rfl ?_ rfl
      cases b with
      | work w => exact absurd rfl (hb w)
      | getattr | readdir | loginEnds => rfl
    · rw [work_congr hs] at hwork
      exact .worked w rfl hwork

/-- A read keeps its call and what it wants. -/
theorem wanting_step (hw : s.Wanting) (h : s.step a = some s') : s'.Wanting := by
  cases a with
  | begins call =>
    obtain ⟨checked, rest, hchecks, rfl⟩ := begins_eq_some h
    rcases readChecks_eq_ok hchecks with ⟨result, rfl, -⟩ | ⟨wanted, rfl, hwanted⟩
    · exact hw
    · have hdid : getDid call.path = .ok wanted.did := (wantedOf_eq_ok hwanted).2
      exact forall_mem_concat hw hdid
  | continues k =>
    obtain ⟨r, progress, m, hr, hread, rfl⟩ := continues_eq_some h
    have hdid : getDid r.call.path = .ok r.wanted.did := hw r (List.mem_of_getElem? hr)
    cases hread with
    | cached | flagged | started => exact forall_mem_eraseIdx hw k
    | notCached | notFlagged | appended => exact forall_mem_set hw k hdid
  | background b =>
    obtain ⟨m, -, rfl⟩ := background_eq_some h
    exact hw

/-- The account of a run: the calls that have handed their jobs over, these jobs, and the number of
steps the workers have taken. -/
structure Accounted (servers : ServerMap) (opens : ℕ → ℕ → Bool) (calls : List ReadCall)
    (orders : List RucioDownloadInfo) (steps : ℕ) (s : Session) : Prop where
  settings : SameSettings servers s.mount.rest.servers
  wanting : s.Wanting
  built : calls.map (ReadCall.order servers) = orders.map .ok
  conserving : Conserving servers orders s.mount.pipeline
  outcomes : (s.mount.pipeline.outcomes opens).Perm (outcomesAlone opens orders)
  paid : steps + s.mount.pipeline.load ≤ stepsPerJob * orders.length

variable {opens : ℕ → ℕ → Bool} {calls : List ReadCall} {orders : List RucioDownloadInfo}
  {steps : ℕ}

/-- **Every step can be accounted for.** -/
theorem Accounted.step (h : Accounted servers opens calls orders steps s)
    (hforeseen : s.Foreseen opens a) (hstep : s.step a = some s') :
    ∃ orders', Accounted servers opens (calls ++ (s.handsOver a).toList) orders'
      (steps + a.cost) s' := by
  have hsettings := (follows_step h.settings hstep).settings
  have hwanting := wanting_step h.wanting hstep
  have hconserving := h.conserving
  have hpaid := h.paid
  -- a step of the mount leaves the pipeline alone, hands it one job, or is a step of a worker
  cases pipelineStep_of_step h.settings h.wanting hstep with
  | still hcall hcost hpipeline =>
    rw [hcall, hcost, Option.toList_none, List.append_nil, Nat.add_zero]
    rw [← hpipeline] at hconserving hpaid
    exact ⟨orders, hsettings, hwanting, h.built, hconserving, hpipeline ▸ h.outcomes, hpaid⟩
  | handed call info hcall hcost hinfo hpipeline =>
    obtain ⟨did, -, hofPath⟩ := bind_eq_ok.1 hinfo
    have hfresh := fresh_of_ofPath hofPath
    -- the account grows by what this job would become alone, and its steps are paid by the call
    -- that ordered it
    refine ⟨orders ++ [info], hsettings, hwanting, ?_, ?_, ?_, ?_⟩
    · rw [hcall, Option.toList_some, List.map_append, List.map_append, h.built,
        List.map_singleton, List.map_singleton, hinfo]
    · rw [hpipeline]
      exact hconserving.append hfresh
    · rw [hpipeline, outcomesAlone_concat, ← hconserving.nextId]
      exact (outcomes_append info).trans (h.outcomes.append_right _)
    · rw [hpipeline, load_append hfresh, hcost, List.length_append, List.length_singleton,
        Nat.mul_succ]
      omega
  | worked w ha hpipeline =>
    subst ha
    have hload := load_work hconserving hpipeline
    refine ⟨orders, hsettings, hwanting, ?_, hconserving.work hpipeline,
      (outcomes_work hconserving hforeseen hpipeline).trans h.outcomes, ?_⟩
    · rw [show s.handsOver (.background (.work w)) = none from rfl, Option.toList_none,
        List.append_nil]
      exact h.built
    · rw [show (SessionAction.background (.work w)).cost = 1 from rfl]
      omega

end Steps

/-! ### Every run -/

section Runs

variable {rest : State} {opens : ℕ → ℕ → Bool} {actions : List SessionAction} {s : Session}

/-- The calls that have handed their jobs over, one step later. -/
theorem handedOver_concat {a : SessionAction}
    (hrun : exec Session.step (Session.start rest) actions = some s) :
    handedOver (Session.start rest) (actions ++ [a]) =
      handedOver (Session.start rest) actions ++ (s.handsOver a).toList := by
  rw [handedOver, seen_concat hrun, List.filterMap_append, if_neg Bool.false_ne_true]
  cases s.handsOver a with
  | none => rfl
  | some call => rfl

/-- **Every run can be accounted for.** -/
theorem accounted_run
    (hforeseen : StepsMeet Session.step (Session.Foreseen opens) (Session.start rest) actions)
    (hrun : exec Session.step (Session.start rest) actions = some s) :
    ∃ orders, Accounted rest.servers opens (handedOver (Session.start rest) actions) orders
      (actions.map SessionAction.cost).sum s := by
  have hall := @run_induction_of_stepsMeet _ _ Session.step (Session.start rest) (fun _ ↦ True)
    (fun as s ↦ exec Session.step (Session.start rest) as = some s ∧
      ∃ orders, Accounted rest.servers opens (handedOver (Session.start rest) as) orders
        (as.map SessionAction.cost).sum s)
    (Session.Foreseen opens) ⟨rfl, [], ?_⟩ ?_ actions (fun _ _ ↦ trivial) hforeseen s hrun
  · exact hall.2
  · exact ⟨sameSettings_refl _, by simp [Session.Wanting, Session.start], rfl, Conserving.start,
      List.Perm.refl _, Nat.le_refl _⟩
  · rintro as a s t ⟨hexec, orders, hs⟩ - hG hstep
    obtain ⟨orders', hs'⟩ := hs.step hG hstep
    refine ⟨?_, orders', ?_⟩
    · rw [exec_append, hexec, Option.bind_some, exec_cons, hstep]
      rfl
    · rw [handedOver_concat hexec, List.map_append, List.sum_append, List.map_singleton,
        List.sum_singleton]
      exact hs'

/-- **From the reads to the notifications.** Take any run of the file system, with a C library of
either kind: reads of any users under way at the same time, other callbacks, download workers, and
ends of login threads, in any order, with servers that answer anything; and let the world answer
each attempt at each job as it is foreseen. There is one job for each read that has handed one over,
in this order: the one for its server, its DID and its user. The workers have taken at most
`stepsPerJob` steps for each of them. A job the notifiers have let go is one of these, with the
outcome it would have alone; and where the workers have come to rest, all of them have been
notified, each once. -/
theorem reads_notified {nullCloses : Bool}
    (hforeseen : StepsMeet Session.step (Session.Foreseen opens) (Session.start rest) actions)
    (hrun : exec (Session.stepOn nullCloses) (Session.start rest) actions = some s) :
    ∃ orders, (handedOver (Session.start rest) actions).map (ReadCall.order rest.servers) =
        orders.map .ok ∧
      (actions.map SessionAction.cost).sum ≤ stepsPerJob * orders.length ∧
      (∀ job ∈ s.mount.pipeline.notified, ∃ info, orders[job.id]? = some info ∧
        info.alone (opens job.id) = job.info) ∧
      ((∀ w, s.stepOn nullCloses (.background (.work w)) = none) →
        s.mount.pipeline.notified.Perm (outcomesAlone opens orders)) := by
  obtain ⟨hrun, -⟩ := exec_of_guarded hrun
  obtain ⟨orders, hs⟩ := accounted_run hforeseen hrun
  have houtcomes := hs.outcomes
  refine ⟨orders, hs.built, (Nat.le_add_right _ _).trans hs.paid, fun job hjob ↦ ?_,
    fun hrest ↦ ?_⟩
  · have hmem : job ∈ s.mount.pipeline.outcomes opens := List.mem_append_right _ hjob
    exact mem_outcomesAlone.1 (houtcomes.mem_iff.1 hmem)
  · obtain ⟨as, hadmissible, hpipeline⟩ := (follows_run hrun).pipeline
    have hidle : ∀ w, s.mount.pipeline.stepOn nullCloses rest.servers (.work w) = none := by
      intro w
      rw [Pipeline.stepOn, guarded]
      split_ifs with hsurvives
      · have hsurvives' : s.survives nullCloses (.background (.work w)) = true := by
          rw [Session.survives, ← hsurvives]
          exact survives_congr hs.settings
        have hnone := (if_pos hsurvives').symm.trans (hrest w)
        have hw := Option.map_eq_none_iff.1 (Option.map_eq_none_iff.1 hnone)
        rwa [work_congr hs.settings] at hw
      · rfl
    obtain ⟨htoDownload, hdownloaders, hdownloaded, hnotifiers⟩ :=
      empty_of_rest hadmissible hpipeline hidle
    rw [Pipeline.outcomes, htoDownload, hdownloaders, hdownloaded, hnotifiers] at houtcomes
    exact houtcomes

end Runs

/-! ### Two reads at the same time -/

/-- A read of the path `/s/u/m`. -/
def sampleSecondRead : ReadCall := { sampleRead with path := ['/', 's', '/', 'u', '/', 'm'] }

/-- Two reads are under way at the same time, and the second one hands its job over first. -/
def interleavedReads (work : List WorkerAction) : List SessionAction :=
  [.begins sampleRead, .begins sampleSecondRead, .continues 0, .continues 1, .continues 0,
    .continues 1, .continues 1, .continues 0, .continues 0, .continues 0] ++
  work.map fun w ↦ .background (.work w)

/-- Both files arrive at once, and the workers run empty. -/
def readsWork : List WorkerAction :=
  [.downloaderGet 1, .downloaderGet 0, .downloaderProcess 0 sampleAttempt, .downloaderHandle 0,
    .downloaderProcess 0 sampleAttempt, .downloaderHandle 0] ++ twoNotifications

/-- Both jobs are notified, each with the outcome it would have alone. -/
theorem reads_notified_interleaved :
    ∃ s, exec (Session.stepOn false) (Session.start sampleMount.rest)
        (interleavedReads readsWork) = some s ∧
      s.mount.pipeline.notified.Perm
        (outcomesAlone (fun _ _ ↦ true) [sampleJob ['m'], sampleJob ['n']]) := by
  have hforeseen : StepsMeet Session.step (Session.Foreseen fun _ _ ↦ true)
      (Session.start sampleMount.rest) (interleavedReads readsWork) := by
    decide +kernel
  have hplaces : (exec (Session.stepOn false) (Session.start sampleMount.rest)
      (interleavedReads readsWork)).map
      (fun s ↦ (s.mount.pipeline.toDownload, s.mount.pipeline.downloaders,
        s.mount.pipeline.downloaded, s.mount.pipeline.notifiers)) = some ([], [], [], []) := by
    decide +kernel
  have hcalls : (handedOver (Session.start sampleMount.rest) (interleavedReads readsWork)).map
      (ReadCall.order sampleMount.rest.servers) =
        [sampleJob ['m'], sampleJob ['n']].map .ok := by
    decide +kernel
  obtain ⟨s, hrun, hempty⟩ := Option.map_eq_some_iff.1 hplaces
  simp only [Prod.mk.injEq] at hempty
  obtain ⟨htoDownload, hdownloaders, hdownloaded, hnotifiers⟩ := hempty
  obtain ⟨orders, hbuilt, -, -, hall⟩ := reads_notified hforeseen hrun
  have horders : orders = [sampleJob ['m'], sampleJob ['n']] :=
    List.map_injective_iff.2 (fun x y h ↦ Except.ok.inj h) (hbuilt.symm.trans hcalls)
  refine ⟨s, hrun, horders ▸ hall fun w ↦ ?_⟩
  have hidle : s.mount.pipeline.stepOn false s.mount.rest.servers (.work w) = none :=
    rest_of_empty htoDownload hdownloaders hdownloaded hnotifiers w
  rw [Session.stepOn, guarded]
  split_ifs with hsurvives
  · show Option.map _ (Option.map _ _) = none
    rw [show s.mount.pipeline.work s.mount.rest.servers w = none from
      (if_pos hsurvives).symm.trans hidle]
    rfl
  · rfl

end FusePosix
