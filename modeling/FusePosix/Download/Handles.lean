import FusePosix.Download.Passes

/-!
# The handles of a pass

A pass that makes an attempt opens the downloaded file to see whether it is there. What is to become
of the handle depends on the answer of `fopen`, and neither branch gets it right: a handle is kept
by nobody, and a null pointer is closed. The cache of open files, which would close its handles in
the end, is never given one.

So the handles of a pass are balanced exactly if the pass does not come to `fopen`
(`handles_balanced_iff`). `rucioDownloadWrapperHandles` is the pass with all it does to handles; its
result is that of `rucioDownloadWrapper` (`rucioDownloadWrapperHandles_fst`).
-/

namespace FusePosix

open Transition

/-! ### Events -/

/-- What is done with a handle, or with a null pointer. -/
inductive HandleEvent where
  /-- `fopen` returns it. -/
  | opened (file : Option ℕ)
  /-- `fclose` is applied to it. -/
  | closed (file : Option ℕ)
  /-- `file_cache::add_file` stores it; the cache closes what it holds when it is destroyed. -/
  | handedOver (file : Option ℕ)
  deriving DecidableEq, Repr

/-- Every handle is closed once or handed over, and no null pointer is closed. -/
structure Balanced (events : List HandleEvent) : Prop where
  released : ∀ handle, .opened (some handle) ∈ events →
    (events.count (.closed (some handle)) = 1 ∧ .handedOver (some handle) ∉ events) ∨
      (.closed (some handle) ∉ events ∧ .handedOver (some handle) ∈ events)
  nonNull : HandleEvent.closed none ∉ events

theorem balanced_nil : Balanced [] :=
  ⟨fun _ h ↦ absurd h List.not_mem_nil, List.not_mem_nil⟩

/-! ### A pass -/

/-- One pass over a job, with what it does to handles. `file` is what `fopen` returns. -/
def rucioDownloadWrapperHandles (servers : ServerMap) (a : Attempt) (file : Option ℕ)
    (info : RucioDownloadInfo) :
    Except Fault ((RucioDownloadInfo × Option Str) × List HandleEvent) := do
  if !serverExists servers info.fserverName then
    return (({ info with freturnCode := serverNotFound }, none), [])
  else if info.fattempt < maxAttempts ∧ info.freturnCode ≠ settingsNotFound then
    let info := { info with fattempt := info.fattempt + 1 }
    let scopename := info.scopename
    let filename ← info.filename
    let cachePath := rucioCachePath ++ ['/'] ++ info.fserverName ++ ['/'] ++ scopename
    let did := scopename ++ [':'] ++ filename
    let (newCfg, info) ← newConfig a info
    let command := downloadCommand newCfg cachePath did
    if file.isNone then
      return (({ info with freturnCode := fileNotFound, fdownloaded := false }, some command),
        [.opened file, .closed file])
    else
      return (({ info with freturnCode := 0, fdownloaded := true }, some command), [.opened file])
  else
    return (({ info with freturnCode := tooManyAttempts, fdownloaded := false }, none), [])

/-- A pass, with what `fopen` returns in it. -/
structure HandlePass where
  attempt : Attempt
  file : Option ℕ

/-- The pass without the handle. -/
def HandlePass.outcome (p : HandlePass) : Attempt := { p.attempt with opened := p.file.isSome }

section Pass

variable {servers : ServerMap} {info : RucioDownloadInfo}

/-- **What a pass does to handles does not change its result.** -/
theorem rucioDownloadWrapperHandles_fst (p : HandlePass) :
    (rucioDownloadWrapperHandles servers p.attempt p.file info).map Prod.fst =
      rucioDownloadWrapper servers p.outcome info := by
  obtain ⟨a, file⟩ := p
  set next : RucioDownloadInfo := { info with fattempt := info.fattempt + 1 } with hnext
  rw [rucioDownloadWrapperHandles, rucioDownloadWrapper]
  by_cases hserver : (!serverExists servers info.fserverName) = true
  · rw [if_pos hserver, if_pos hserver]
    rfl
  by_cases hleft : info.fattempt < maxAttempts ∧ info.freturnCode ≠ settingsNotFound
  · rw [if_neg hserver, if_neg hserver, if_pos hleft, if_pos hleft]
    -- the settings copy does not depend on what `fopen` returns
    have hcfg : newConfig (HandlePass.outcome ⟨a, file⟩) next = newConfig a next := rfl
    simp only [← hnext, hcfg]
    rcases next.filename with fault | filename
    · rfl
    · rcases newConfig a next with fault | ⟨newCfg, done⟩
      · rfl
      · rcases file with - | handle
        · rfl
        · rfl
  · rw [if_neg hserver, if_neg hserver, if_neg hleft, if_neg hleft]
    rfl

/-- The handles of a pass that makes an attempt: one is opened, and a null pointer is closed. -/
theorem rucioDownloadWrapperHandles_attempt (h : info.Loaded servers) (hleft : info.AttemptsLeft)
    (p : HandlePass) : ∃ result, rucioDownloadWrapperHandles servers p.attempt p.file info =
      .ok (result, .opened p.file :: if p.file.isNone then [.closed p.file] else []) := by
  obtain ⟨a, file⟩ := p
  obtain ⟨source, hsource⟩ := Option.ne_none_iff_exists'.1 h.config
  obtain ⟨folder, hfolder⟩ := Option.ne_none_iff_exists'.1 h.folder
  obtain ⟨filename, hfilename⟩ := exists_filename h.pos
  set next : RucioDownloadInfo := { info with fattempt := info.fattempt + 1 } with hnext
  have hname : next.filename = .ok filename := hfilename
  obtain ⟨cfg, hcfg⟩ : ∃ cfg, newConfig a next = .ok cfg := by
    have hconfig : next.fserverConfig = some source := hsource
    rw [newConfig_eq hconfig hfolder a]
    split_ifs
    · exact ⟨_, rfl⟩
    · exact ⟨_, rfl⟩
  have hmade : info.fattempt < maxAttempts ∧ info.freturnCode ≠ settingsNotFound := hleft
  rw [rucioDownloadWrapperHandles, h.server, if_neg (by decide), if_pos hmade]
  simp only [← hnext, hname, hcfg, ok_bind]
  rcases file with - | handle
  · exact ⟨_, rfl⟩
  · exact ⟨_, rfl⟩

/-- A pass that does not come to `fopen` has no handles. -/
theorem rucioDownloadWrapperHandles_idle
    (h : ¬ (serverExists servers info.fserverName = true ∧ info.AttemptsLeft)) (p : HandlePass) :
    ∃ result, rucioDownloadWrapperHandles servers p.attempt p.file info = .ok (result, []) := by
  rw [rucioDownloadWrapperHandles]
  rcases hserver : serverExists servers info.fserverName with - | -
  · exact ⟨_, rfl⟩
  · have hleft : ¬ (info.fattempt < maxAttempts ∧ info.freturnCode ≠ settingsNotFound) :=
      fun hleft ↦ h ⟨hserver, hleft⟩
    rw [if_neg (by decide), if_neg hleft]
    exact ⟨_, rfl⟩

end Pass

/-! ### All passes of a job -/

/-- One turn of the retry loop, with the handle. -/
def Retried.handleTurn (servers : ServerMap) (j : Retried) (p : HandlePass) : Option Retried :=
  j.turn servers p.outcome

/-- The handles of a pass are balanced by its end. -/
def PassBalanced (servers : ServerMap) (j : Retried) (p : HandlePass) : Prop :=
  ∀ result events, rucioDownloadWrapperHandles servers p.attempt p.file j.info =
    .ok (result, events) → Balanced events

/-- The condition: the pass does not come to `fopen`, for want of the server or of attempts. -/
def OpensNothing (servers : ServerMap) (j : Retried) (_ : HandlePass) : Prop :=
  ¬ (serverExists servers j.info.fserverName = true ∧ j.info.AttemptsLeft)

section Balance

variable {servers : ServerMap} {info : RucioDownloadInfo} {j : Retried} {p : HandlePass}

/-- Neither a handle nor a null pointer is treated as it should be. -/
theorem not_balanced_opened (file : Option ℕ) :
    ¬ Balanced (.opened file :: if file.isNone then [.closed file] else []) := by
  intro h
  rcases file with - | handle
  · exact h.nonNull (List.mem_cons_of_mem _ List.mem_cons_self)
  · rcases h.released handle List.mem_cons_self with ⟨hclosed, -⟩ | ⟨-, hgiven⟩
    · simp at hclosed
    · simp at hgiven

theorem passBalanced_iff (h : j.info.Built servers) :
    PassBalanced servers j p ↔ OpensNothing servers j p := by
  by_cases hattempt : serverExists servers j.info.fserverName = true ∧ j.info.AttemptsLeft
  · obtain ⟨result, hpass⟩ :=
      rucioDownloadWrapperHandles_attempt (h.loaded hattempt.1) hattempt.2 p
    exact iff_of_false (fun hall ↦ not_balanced_opened p.file (hall _ _ hpass))
      (not_not_intro hattempt)
  · obtain ⟨result, hpass⟩ := rucioDownloadWrapperHandles_idle hattempt p
    refine iff_of_true (fun result' events hrun ↦ ?_) hattempt
    rw [hpass] at hrun
    obtain ⟨-, rfl⟩ := Prod.mk.inj (Except.ok.inj hrun)
    exact balanced_nil

/-- **When the handles of a job are balanced.** For every job, all its passes and all answers of
`fopen`: in every pass exactly if no pass comes to `fopen`. -/
theorem handles_balanced_iff (h : info.Built servers) (passes : List HandlePass) :
    StepsMeet (Retried.handleTurn servers) (PassBalanced servers) { info } passes ↔
      StepsMeet (Retried.handleTurn servers) (OpensNothing servers) { info } passes :=
  @stepsMeet_iff _ _ (Retried.handleTurn servers) (fun j ↦ j.info.Built servers) _ _
    (fun _ _ _ hj hstep ↦ ⟨passBalanced_iff hj, fun _ ↦ (built_turn hj hstep).1⟩) passes { info } h

end Balance

/-- A job without a server has no handles to balance. -/
theorem handles_balanced_sampleStray :
    StepsMeet (Retried.handleTurn sampleServers) (PassBalanced sampleServers)
      { info := sampleStray } [⟨sampleAttempt, some 3⟩] := by
  have hbuilt : sampleStray.Built sampleServers :=
    ⟨fun hserver ↦ absurd hserver (by decide), by decide⟩
  refine (handles_balanced_iff hbuilt _).2 fun t _ ↦ ⟨fun hattempt ↦ ?_, trivial⟩
  exact absurd hattempt.1 (by decide)

/-- **A handle is lost and a null pointer is closed** in the passes of a loaded server. -/
theorem not_handles_balanced_sampleJob :
    ¬ (∀ (servers : ServerMap) (info : RucioDownloadInfo) (passes : List HandlePass),
        info.Built servers →
        StepsMeet (Retried.handleTurn servers) (PassBalanced servers) { info } passes) ∧
    (rucioDownloadWrapperHandles sampleServers sampleAttempt (some 3) (sampleJob ['n'])).map
      Prod.snd = .ok [.opened (some 3)] ∧
    (rucioDownloadWrapperHandles sampleServers sampleAttempt none (sampleJob ['n'])).map
      Prod.snd = .ok [.opened none, .closed none] := by
  refine ⟨fun hall ↦ ?_, by decide +kernel, by decide +kernel⟩
  have hloaded : (sampleJob ['n']).Loaded sampleServers := (fresh_sampleJob ['n']).toLoaded
  have hleft : (sampleJob ['n']).AttemptsLeft := by decide
  obtain ⟨command, -, hturn⟩ := @downloaderTurn_attempt sampleServers (sampleJob ['n'])
    (HandlePass.outcome ⟨sampleAttempt, some 3⟩) hloaded hleft
  obtain ⟨hbalanced, -⟩ := hall sampleServers (sampleJob ['n']) [⟨sampleAttempt, some 3⟩]
    (built_sampleJob ['n']) _ (turn_eq_some rfl hturn)
  obtain ⟨result, hpass⟩ :=
    rucioDownloadWrapperHandles_attempt hloaded hleft ⟨sampleAttempt, some 3⟩
  exact not_balanced_opened (some 3) (hbalanced _ _ hpass)

end FusePosix
