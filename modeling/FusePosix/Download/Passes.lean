import FusePosix.Download.Pipeline
import FusePosix.Lib.Transition

/-!
# The passes of a job

A job that a downloader takes from its input queue gets one pass of the wrapper and then goes to the
output queue, if its file has arrived or its attempts are used up, or back to the input queue. This
is a loop that runs through a queue: one turn of it is `downloaderTurn`, and `Retried.turn` makes a
labelled system of it, with what the operating system answers during the pass as the label.

Two things are said about whole runs of the loop, each with its exact condition.

* `leaves_loop_iff`: a job leaves the loop after it has been put back `maxAttempts` times at most if
  its server is loaded. Otherwise it is put back for ever: the branch for a missing server neither
  counts the attempt nor sets the code that ends the loop.
* `download_reported_iff`: a job is reported done only if it was done, and nothing is run after a
  failed settings copy, if no settings copy fails, and the command exits with 0 whenever the file
  can be opened afterwards. The wrapper looks at `fopen` only; a file that an earlier run has left
  in the cache will do.
-/

namespace FusePosix

open Transition

/-! ### One turn -/

/-- One turn of the retry loop: the job after the pass, the command that was run, and whether the
job leaves for `downloaded`. -/
def downloaderTurn (servers : ServerMap) (a : Attempt) (info : RucioDownloadInfo) :
    Except Fault (RucioDownloadInfo × Option Str × Bool) := do
  let (output, command) ← downloaderProcessInput servers a info
  return (output, command, ← downloaderHandleOutput output)

/-- What the constructor guarantees of a job, whether its server is loaded or not. -/
structure RucioDownloadInfo.Built (servers : ServerMap) (info : RucioDownloadInfo) : Prop where
  pointers : serverExists servers info.fserverName = true →
    info.fserverConfig ≠ none ∧ info.tempConfigFolder ≠ none
  pos : info.fpos = info.fdid.idxOf? ':'

/-- The wrapper makes an attempt: it looks for the settings and runs the command. -/
def RucioDownloadInfo.AttemptsLeft (info : RucioDownloadInfo) : Prop :=
  info.fattempt < maxAttempts ∧ info.freturnCode ≠ settingsNotFound

instance (info : RucioDownloadInfo) : Decidable info.AttemptsLeft :=
  inferInstanceAs (Decidable (_ ∧ _))

section Turn

variable {servers : ServerMap} {info : RucioDownloadInfo} {a : Attempt}

theorem RucioDownloadInfo.Built.loaded (h : info.Built servers)
    (hserver : serverExists servers info.fserverName = true) : info.Loaded servers :=
  ⟨hserver, (h.pointers hserver).1, (h.pointers hserver).2, h.pos⟩

theorem exists_fullCachePath (hpos : info.fpos = info.fdid.idxOf? ':') :
    ∃ file, info.fullCachePath = .ok file := by
  obtain ⟨filename, hfilename⟩ := exists_filename hpos
  exact ⟨_, by rw [RucioDownloadInfo.fullCachePath, hfilename]; rfl⟩

/-- Where `handle_output` sends a job. -/
theorem downloaderHandleOutput_eq (hpos : info.fpos = info.fdid.idxOf? ':') :
    downloaderHandleOutput info =
      .ok (info.fdownloaded || decide (info.freturnCode = tooManyAttempts)) := by
  obtain ⟨file, hfile⟩ := exists_fullCachePath hpos
  rw [downloaderHandleOutput, hfile]
  rcases info.fdownloaded with - | -
  · by_cases hcode : info.freturnCode = tooManyAttempts
    · simp [hcode]
    · simp [hcode]
  · simp

/-- The log lines of a turn do no harm. -/
theorem downloaderTurn_eq (h : info.Built servers) {output : RucioDownloadInfo}
    {command : Option Str} (hpass : rucioDownloadWrapper servers a info = .ok (output, command))
    (hpos : output.fpos = output.fdid.idxOf? ':') :
    downloaderTurn servers a info = .ok (output, command,
      output.fdownloaded || decide (output.freturnCode = tooManyAttempts)) := by
  obtain ⟨file, hfile⟩ := exists_fullCachePath h.pos
  rw [downloaderTurn, downloaderProcessInput, hfile, ok_bind, hpass, ok_bind]
  simp only [downloaderHandleOutput_eq hpos]
  rfl

/-- **A turn without a server** leaves the score alone but for the code. -/
theorem downloaderTurn_unloaded (h : info.Built servers)
    (hserver : serverExists servers info.fserverName = false) :
    downloaderTurn servers a info =
      .ok ({ info with freturnCode := serverNotFound }, none, info.fdownloaded) := by
  rw [downloaderTurn_eq h (rucioDownloadWrapper_unloaded hserver a) h.pos]
  simp [serverNotFound, tooManyAttempts]

/-- **A turn that makes an attempt** ends the loop if the file can be opened. -/
theorem downloaderTurn_attempt (h : info.Loaded servers) (hleft : info.AttemptsLeft) :
    ∃ command, rucioDownloadWrapper servers a info =
        .ok (info.attempted a.opened, some command) ∧
      downloaderTurn servers a info = .ok (info.attempted a.opened, some command, a.opened) := by
  obtain ⟨source, folder, filename, -, -, -, hpass⟩ :=
    rucioDownloadWrapper_attempt h hleft.1 hleft.2 a
  have hbuilt : info.Built servers := ⟨fun _ ↦ ⟨h.config, h.folder⟩, h.pos⟩
  refine ⟨_, hpass, ?_⟩
  rw [downloaderTurn_eq hbuilt hpass h.pos]
  rcases hopened : a.opened with - | -
  · rfl
  · rfl

/-- **A turn without attempts left** ends the loop. -/
theorem downloaderTurn_giveUp (h : info.Loaded servers) (hleft : ¬ info.AttemptsLeft) :
    downloaderTurn servers a info = .ok (info.givenUp, none, true) := by
  have hbuilt : info.Built servers := ⟨fun _ ↦ ⟨h.config, h.folder⟩, h.pos⟩
  rw [downloaderTurn_eq hbuilt (rucioDownloadWrapper_giveUp h hleft a) h.pos]
  rfl

/-- **A turn is what a busy downloader does with its job**, in two steps of the pipeline. -/
theorem downloaderTurn_of_work {p : Pipeline} {k : ℕ} {job : Job}
    (hjob : p.downloaders[k]? = some (.input job)) :
    (p.downloaderProcess servers k a).bind (fun q ↦ q.downloaderHandle k) =
      (downloaderTurn servers a job.info).toOption.map fun turn ↦
        (p.pass k job (turn.1, turn.2.1)).release k ⟨job.id, turn.1⟩ turn.2.2 := by
  obtain ⟨hk, -⟩ := List.getElem?_eq_some_iff.1 hjob
  simp only [Pipeline.downloaderProcess, hjob, downloaderTurn]
  rcases hpass : downloaderProcessInput servers a job.info with fault | ⟨output, command⟩
  · rfl
  · have hout : (p.pass k job (output, command)).downloaders[k]? =
        some (.output ⟨job.id, output⟩) := List.getElem?_set_self hk
    have hhandle : (p.pass k job (output, command)).downloaderHandle k =
        (downloaderHandleOutput output).toOption.map
          ((p.pass k job (output, command)).release k ⟨job.id, output⟩) := by
      rw [Pipeline.downloaderHandle, hout]
    show (p.pass k job (output, command)).downloaderHandle k = _
    rw [hhandle, ok_bind]
    simp only
    rcases downloaderHandleOutput output with fault | leaves
    · rfl
    · rfl

end Turn

/-! ### The loop -/

/-- A job in the retry loop. -/
structure Retried where
  info : RucioDownloadInfo
  /-- The job is in the input queue; else it has left for the output queue. -/
  waiting : Bool := true
  /-- `copyConfig` has thrown in one of its passes, for the record only. -/
  thrown : Bool := false

/-- `copyConfig` throws in a pass. -/
def copyThrows (servers : ServerMap) (a : Attempt) (info : RucioDownloadInfo) : Bool :=
  serverExists servers info.fserverName && decide info.AttemptsLeft &&
    (info.fserverConfig.any fun source ↦ info.tempConfigFolder.any fun folder ↦
      !(copyConfig a.files a.copyFault source folder info.username).1.isOk)

/-- One turn of the loop for a job that waits. -/
def Retried.turn (servers : ServerMap) (j : Retried) (a : Attempt) : Option Retried :=
  if j.waiting then
    (downloaderTurn servers a j.info).toOption.map fun turn ↦
      { info := turn.1
        waiting := !turn.2.2
        thrown := j.thrown || copyThrows servers a j.info }
  else none

section Loop

variable {servers : ServerMap} {info : RucioDownloadInfo} {a : Attempt} {j t : Retried}

theorem turn_eq_some (hwaiting : j.waiting = true) {output : RucioDownloadInfo}
    {command : Option Str} {leaves : Bool}
    (h : downloaderTurn servers a j.info = .ok (output, command, leaves)) :
    j.turn servers a = some ⟨output, !leaves, j.thrown || copyThrows servers a j.info⟩ := by
  rw [Retried.turn, if_pos hwaiting, h]
  rfl

/-- How often a job of a loaded server can be put back. -/
def Retried.putBacks (j : Retried) : ℕ :=
  if j.info.AttemptsLeft then maxAttempts - j.info.fattempt else 0

/-- **Every turn of a job of a loaded server** ends the loop or uses up an attempt. -/
theorem turn_loaded (h : j.info.Loaded servers) (hwaiting : j.waiting = true) :
    ∃ t, j.turn servers a = some t ∧ (t.waiting = false ∨
      (t.info.Loaded servers ∧ t.waiting = true) ∧ t.putBacks < j.putBacks) := by
  by_cases hleft : j.info.AttemptsLeft
  · obtain ⟨command, -, hturn⟩ := @downloaderTurn_attempt servers j.info a h hleft
    refine ⟨_, turn_eq_some hwaiting hturn, ?_⟩
    rcases hopened : a.opened with - | -
    · refine Or.inr ⟨⟨⟨h.server, h.config, h.folder, h.pos⟩, rfl⟩, ?_⟩
      have hless : j.info.fattempt < maxAttempts := hleft.1
      rw [Retried.putBacks, Retried.putBacks, if_pos hleft]
      show (if _ then maxAttempts - (j.info.fattempt + 1) else 0) < _
      split_ifs
      · exact Nat.sub_lt_sub_left hless (Nat.lt_succ_self _)
      · exact Nat.sub_pos_of_lt hless
    · exact Or.inl rfl
  · exact ⟨_, turn_eq_some hwaiting (downloaderTurn_giveUp h hleft), Or.inl rfl⟩

/-- **A job without a server** is put back by every turn. -/
theorem waiting_of_unloaded (h : info.Built servers)
    (hserver : serverExists servers info.fserverName = false) (hnot : info.fdownloaded = false)
    {attempts : List Attempt} (hrun : exec (Retried.turn servers) { info } attempts = some t) :
    t.waiting = true := by
  have hkept : t.info.Built servers ∧ t.info.fserverName = info.fserverName ∧
      t.info.fdownloaded = false ∧ t.waiting = true := by
    refine @run_induction _ _ (Retried.turn servers) _ (fun _ ↦ True)
      (fun _ t ↦ t.info.Built servers ∧ t.info.fserverName = info.fserverName ∧
        t.info.fdownloaded = false ∧ t.waiting = true)
      ⟨h, rfl, hnot, rfl⟩ ?_ attempts (fun _ _ ↦ trivial) t hrun
    rintro as a j u ⟨hbuilt, hname, hdone, hwaiting⟩ - hstep
    rw [turn_eq_some hwaiting (downloaderTurn_unloaded hbuilt (hname ▸ hserver))] at hstep
    obtain rfl := Option.some.inj hstep
    exact ⟨⟨hbuilt.pointers, hbuilt.pos⟩, hname, hdone, by rw [hdone]; rfl⟩
  exact hkept.2.2.2

/-- **The job leaves the loop**: whatever the outcomes of its passes, it is put back `maxAttempts`
times at most before it goes to the output queue. -/
def LeavesLoop (servers : ServerMap) (info : RucioDownloadInfo) : Prop :=
  ∀ attempts : List Attempt, maxAttempts < attempts.length → ∃ n ≤ maxAttempts, ∃ j,
    exec (Retried.turn servers) { info } (attempts.take (n + 1)) = some j ∧ j.waiting = false

/-- **When jobs leave the loop.** For every job, with any score: if its server is loaded. Otherwise
only if it is marked as downloaded from the start. -/
theorem leaves_loop_iff (h : info.Built servers) :
    LeavesLoop servers info ↔
      serverExists servers info.fserverName = true ∨ info.fdownloaded = true := by
  constructor
  · intro hleaves
    -- an unloaded server fails every pass without counting it: the job still waits after any number
    -- of turns
    by_contra hnot
    rw [not_or, Bool.not_eq_true, Bool.not_eq_true] at hnot
    obtain ⟨n, -, j, hrun, hleft⟩ :=
      hleaves (List.replicate (maxAttempts + 1) sampleAttempt) (by simp)
    have hwaiting := waiting_of_unloaded h hnot.1 hnot.2 hrun
    exact absurd (hwaiting.symm.trans hleft) (by decide)
  · intro hends attempts hlength
    -- unloaded but marked as downloaded: the first turn lets the job go; loaded: each turn back
    -- counts an attempt, so the measure runs out
    rcases hserver : serverExists servers info.fserverName with - | -
    · have hdone : info.fdownloaded = true := by
        rcases hends with hloaded | hdone
        · rw [hserver] at hloaded
          cases hloaded
        · exact hdone
      rcases attempts with - | ⟨a, attempts⟩
      · exact absurd hlength (Nat.not_lt_zero _)
      · have hturn := @downloaderTurn_unloaded servers info a h hserver
        rw [hdone] at hturn
        have hstep := @turn_eq_some servers a { info } rfl _ _ _ hturn
        refine ⟨0, Nat.zero_le _, _, Eq.trans ?_ hstep, rfl⟩
        rw [List.take_succ_cons, List.take_zero, exec_cons, hstep, Option.bind_some, exec_nil]
    · have hbound : ({ info } : Retried).putBacks ≤ maxAttempts := by
        rw [Retried.putBacks]
        split_ifs
        · exact Nat.sub_le _ _
        · exact Nat.zero_le _
      obtain ⟨n, hn, j, hrun, hleft⟩ := @exists_done_of_measure _ _ (Retried.turn servers)
        (fun j ↦ j.info.Loaded servers ∧ j.waiting = true) (fun j ↦ j.waiting = false)
        Retried.putBacks (fun j a hj ↦ turn_loaded hj.1 hj.2) attempts { info }
        ⟨h.loaded hserver, rfl⟩ (by omega)
      exact ⟨n, hn.trans hbound, j, hrun, hleft⟩

end Loop

/-- A job of the server `x`, which is not loaded. -/
def sampleStray : RucioDownloadInfo := { sampleJob ['n'] with fserverName := ['x'] }

theorem built_sampleJob (name : Str) : (sampleJob name).Built sampleServers :=
  ⟨fun _ ↦ ⟨(fresh_sampleJob name).config, (fresh_sampleJob name).folder⟩,
    (fresh_sampleJob name).pos⟩

/-- A job of a loaded server leaves the loop. -/
theorem leaves_loop_sampleJob : LeavesLoop sampleServers (sampleJob ['n']) :=
  (leaves_loop_iff (built_sampleJob ['n'])).2 (Or.inl rfl)

/-- **A job without a server goes round for ever.** Five passes put it back five times. -/
theorem not_leaves_loop_sampleStray :
    ¬ (∀ (servers : ServerMap) (info : RucioDownloadInfo), info.Built servers →
        LeavesLoop servers info) ∧
    (exec (Retried.turn sampleServers) { info := sampleStray }
      (List.replicate 5 sampleAttempt)).map Retried.waiting = some true := by
  have hrun : (exec (Retried.turn sampleServers) { info := sampleStray }
      (List.replicate 5 sampleAttempt)).map Retried.waiting = some true := by
    decide +kernel
  refine ⟨fun hall ↦ ?_, hrun⟩
  have hbuilt : sampleStray.Built sampleServers :=
    ⟨fun hserver ↦ absurd hserver (by decide), by decide⟩
  obtain ⟨n, hn, j, hleft, hwaiting⟩ := hall sampleServers sampleStray hbuilt
    (List.replicate 5 sampleAttempt) (by decide)
  have hwaits := waiting_of_unloaded hbuilt (by decide) rfl hleft
  exact absurd (hwaits.symm.trans hwaiting) (by decide)

/-! ### What is reported -/

/-- The file was downloaded in this pass: the settings were copied, the command ran with the copy
and exited with 0, and the file can be opened. -/
def TrulyDownloaded (a : Attempt) (info : RucioDownloadInfo) (command : Option Str) : Prop :=
  ∃ source folder filename newCfg,
    info.fserverConfig = some source ∧ info.tempConfigFolder = some folder ∧
    info.filename = .ok filename ∧
    (copyConfig a.files a.copyFault source folder info.username).1 = .ok newCfg ∧
    command = some (downloadCommand newCfg info.cacheDir (info.scopename ++ [':'] ++ filename)) ∧
    a.systemReturn = 0 ∧ a.opened = true

/-- A pass reports faithfully: it marks a job as downloaded only if it was downloaded in this pass.
Once a settings copy has failed it runs no command and the job is not downloaded. -/
def PassReports (servers : ServerMap) (j : Retried) (a : Attempt) : Prop :=
  ∀ output command, rucioDownloadWrapper servers a j.info = .ok (output, command) →
    (output.fdownloaded = true → TrulyDownloaded a j.info command) ∧
    ((j.thrown || copyThrows servers a j.info) = true →
      command = none ∧ output.fdownloaded = false)

/-- The condition. For a loaded server with attempts left: the settings copy does not fail, and if
the file can be opened the command has exited with 0. Without a server: the job is not marked as
downloaded from before. -/
def PassSound (servers : ServerMap) (j : Retried) (a : Attempt) : Prop :=
  (serverExists servers j.info.fserverName = false → j.info.fdownloaded = false) ∧
  (serverExists servers j.info.fserverName = true → j.info.AttemptsLeft →
    (∀ source folder, j.info.fserverConfig = some source → j.info.tempConfigFolder = some folder →
      SettingsCopied a source (configCopyPath source folder j.info.username)) ∧
    (a.opened = true → a.systemReturn = 0))

section Reports

variable {servers : ServerMap} {info : RucioDownloadInfo} {a : Attempt} {j t : Retried}

/-- `copyConfig` throws unless the settings are copied. -/
theorem copyThrows_eq {source folder : Str} (h : info.Loaded servers) (hleft : info.AttemptsLeft)
    (hsource : info.fserverConfig = some source) (hfolder : info.tempConfigFolder = some folder) :
    copyThrows servers a info =
      !decide (SettingsCopied a source (configCopyPath source folder info.username)) := by
  rw [copyThrows, h.server, hsource, hfolder, decide_eq_true hleft]
  simp only [Bool.and_self, Bool.true_and, Option.any_some, copyConfig_fst]
  split_ifs with hcopied
  · rw [decide_eq_true hcopied]
    rfl
  · rw [decide_eq_false hcopied]
    rfl

theorem copyThrows_of_not (h : ¬ (serverExists servers info.fserverName = true ∧
    info.AttemptsLeft)) : copyThrows servers a info = false := by
  rw [copyThrows]
  rcases hserver : serverExists servers info.fserverName with - | -
  · rfl
  · have hleft : ¬ info.AttemptsLeft := fun hleft ↦ h ⟨hserver, hleft⟩
    rw [decide_eq_false hleft]
    rfl

/-- What a pass does is what it has to report. -/
theorem passReports_iff_of_pass {output : RucioDownloadInfo} {command : Option Str}
    (hpass : rucioDownloadWrapper servers a j.info = .ok (output, command)) :
    PassReports servers j a ↔ (output.fdownloaded = true → TrulyDownloaded a j.info command) ∧
      ((j.thrown || copyThrows servers a j.info) = true →
        command = none ∧ output.fdownloaded = false) := by
  refine ⟨fun hreports ↦ hreports _ _ hpass, fun hreports output' command' hrun ↦ ?_⟩
  obtain ⟨rfl, rfl⟩ := Prod.mk.inj (Except.ok.inj (hpass.symm.trans hrun))
  exact hreports

/-- A pass without a server. -/
theorem passReports_unloaded_iff (hserver : serverExists servers j.info.fserverName = false)
    (hthrown : j.thrown = false) : PassReports servers j a ↔ j.info.fdownloaded = false := by
  have hthrows : copyThrows servers a j.info = false := copyThrows_of_not fun h ↦ by
    rw [hserver] at h
    exact Bool.false_ne_true h.1
  rw [passReports_iff_of_pass (rucioDownloadWrapper_unloaded hserver a), hthrown, hthrows]
  constructor
  · rintro ⟨htruly, -⟩
    by_contra hdone
    obtain ⟨source, folder, filename, newCfg, -, -, -, -, hcommand, -⟩ :=
      htruly (by simpa using hdone)
    cases hcommand
  · intro hdone
    exact ⟨fun h ↦ absurd (hdone.symm.trans h) Bool.false_ne_true, fun h ↦ Bool.noConfusion h⟩

/-- A pass that makes an attempt. -/
theorem passReports_attempt_iff (h : j.info.Loaded servers) (hleft : j.info.AttemptsLeft)
    (hthrown : j.thrown = false) {source folder : Str}
    (hsource : j.info.fserverConfig = some source)
    (hfolder : j.info.tempConfigFolder = some folder) :
    PassReports servers j a ↔
      SettingsCopied a source (configCopyPath source folder j.info.username) ∧
        (a.opened = true → a.systemReturn = 0) := by
  obtain ⟨source', folder', filename, hsource', hfolder', hfilename, hpass⟩ :=
    rucioDownloadWrapper_attempt h hleft.1 hleft.2 a
  obtain rfl := Option.some.inj (hsource.symm.trans hsource')
  obtain rfl := Option.some.inj (hfolder.symm.trans hfolder')
  rw [passReports_iff_of_pass hpass, hthrown, copyThrows_eq h hleft hsource hfolder]
  have hdone : (j.info.attempted a.opened).fdownloaded = a.opened := rfl
  rw [hdone]
  split_ifs with hcopied
  · rw [decide_eq_true hcopied]
    constructor
    · rintro ⟨htruly, -⟩
      refine ⟨hcopied, fun hopened ↦ ?_⟩
      obtain ⟨_, _, _, _, -, -, -, -, -, hzero, -⟩ := htruly hopened
      exact hzero
    · rintro ⟨-, hzero⟩
      refine ⟨fun hopened ↦ ⟨source, folder, filename, _, hsource, hfolder, hfilename, ?_, rfl,
        hzero hopened, hopened⟩, fun h ↦ Bool.noConfusion h⟩
      rw [copyConfig_fst, if_pos hcopied]
  · rw [decide_eq_false hcopied]
    refine iff_of_false (fun hreports ↦ ?_) fun hsound ↦ hcopied hsound.1
    cases (hreports.2 rfl).1

/-- **When a pass reports faithfully**, as long as no settings copy has failed. -/
theorem passReports_iff (h : j.info.Built servers) (hthrown : j.thrown = false) :
    PassReports servers j a ↔ PassSound servers j a := by
  rcases hserver : serverExists servers j.info.fserverName with - | -
  · rw [passReports_unloaded_iff hserver hthrown, PassSound, hserver]
    exact ⟨fun hdone ↦ ⟨fun _ ↦ hdone, fun h ↦ Bool.noConfusion h⟩, fun hsound ↦ hsound.1 rfl⟩
  · have hloaded := h.loaded hserver
    obtain ⟨source, hsource⟩ := Option.ne_none_iff_exists'.1 hloaded.config
    obtain ⟨folder, hfolder⟩ := Option.ne_none_iff_exists'.1 hloaded.folder
    rw [PassSound, hserver]
    by_cases hleft : j.info.AttemptsLeft
    · rw [passReports_attempt_iff hloaded hleft hthrown hsource hfolder]
      constructor
      · rintro ⟨hcopied, hzero⟩
        refine ⟨fun h ↦ Bool.noConfusion h, fun _ _ ↦ ⟨fun source' folder' hs hf ↦ ?_, hzero⟩⟩
        obtain rfl := Option.some.inj (hsource.symm.trans hs)
        obtain rfl := Option.some.inj (hfolder.symm.trans hf)
        exact hcopied
      · rintro ⟨-, hsound⟩
        obtain ⟨hcopied, hzero⟩ := hsound rfl hleft
        exact ⟨hcopied source folder hsource hfolder, hzero⟩
    · rw [passReports_iff_of_pass (rucioDownloadWrapper_giveUp hloaded hleft a)]
      exact iff_of_true ⟨fun hdone ↦ Bool.noConfusion hdone, fun _ ↦ ⟨rfl, rfl⟩⟩
        ⟨fun h ↦ Bool.noConfusion h, fun _ hleft' ↦ absurd hleft' hleft⟩

/-- A turn keeps what the constructor guarantees, and notes whether the copy has failed. -/
theorem built_turn (h : j.info.Built servers) (hstep : j.turn servers a = some t) :
    t.info.Built servers ∧ t.thrown = (j.thrown || copyThrows servers a j.info) := by
  rcases hwaiting : j.waiting with - | -
  · rw [Retried.turn, hwaiting] at hstep
    cases hstep
  · rcases hserver : serverExists servers j.info.fserverName with - | -
    · rw [turn_eq_some hwaiting (downloaderTurn_unloaded h hserver)] at hstep
      obtain rfl := Option.some.inj hstep
      exact ⟨⟨h.pointers, h.pos⟩, rfl⟩
    · by_cases hleft : j.info.AttemptsLeft
      · obtain ⟨command, -, hturn⟩ :=
          @downloaderTurn_attempt servers j.info a (h.loaded hserver) hleft
        rw [turn_eq_some hwaiting hturn] at hstep
        obtain rfl := Option.some.inj hstep
        exact ⟨⟨h.pointers, h.pos⟩, rfl⟩
      · rw [turn_eq_some hwaiting (downloaderTurn_giveUp (h.loaded hserver) hleft)] at hstep
        obtain rfl := Option.some.inj hstep
        exact ⟨⟨h.pointers, h.pos⟩, rfl⟩

/-- In a sound pass the settings copy does not fail. -/
theorem PassSound.copyThrows (h : j.info.Built servers) (hsound : PassSound servers j a) :
    copyThrows servers a j.info = false := by
  by_cases hattempt : serverExists servers j.info.fserverName = true ∧ j.info.AttemptsLeft
  · have hloaded := h.loaded hattempt.1
    obtain ⟨source, hsource⟩ := Option.ne_none_iff_exists'.1 hloaded.config
    obtain ⟨folder, hfolder⟩ := Option.ne_none_iff_exists'.1 hloaded.folder
    obtain ⟨hcopied, -⟩ := hsound.2 hattempt.1 hattempt.2
    rw [copyThrows_eq hloaded hattempt.2 hsource hfolder,
      decide_eq_true (hcopied source folder hsource hfolder)]
    rfl
  · exact copyThrows_of_not hattempt

/-- **When downloads are reported faithfully.** For every job, every registry and all outcomes of
all of its passes: all of them report faithfully exactly if all of them meet the condition. -/
theorem download_reported_iff (h : info.Built servers) (attempts : List Attempt) :
    StepsMeet (Retried.turn servers) (PassReports servers) { info } attempts ↔
      StepsMeet (Retried.turn servers) (PassSound servers) { info } attempts := by
  refine @stepsMeet_iff _ _ (Retried.turn servers)
    (fun j ↦ j.info.Built servers ∧ j.thrown = false) _ _ (fun j a t hj hstep ↦ ?_) attempts
    { info } ⟨h, rfl⟩
  obtain ⟨hbuilt, hnoted⟩ := built_turn hj.1 hstep
  refine ⟨passReports_iff hj.1 hj.2, fun hsound ↦ ⟨hbuilt, ?_⟩⟩
  rw [hnoted, hj.2, hsound.copyThrows hj.1]
  rfl

end Reports

/-- A pass in which all goes well is reported faithfully. -/
theorem download_reported_sampleAttempt :
    StepsMeet (Retried.turn sampleServers) (PassReports sampleServers) { info := sampleJob ['n'] }
      [sampleAttempt] := by
  refine (download_reported_iff (built_sampleJob ['n']) _).2 fun t _ ↦ ⟨⟨?_, ?_⟩, trivial⟩
  · exact fun hserver ↦ absurd hserver (by decide)
  · intro _ _
    refine ⟨fun source folder hsource hfolder ↦ ?_, fun _ ↦ rfl⟩
    obtain rfl : sampleServer.configFilePath = source := Option.some.inj hsource
    obtain rfl : sampleServer.tempConfigFolder = folder := Option.some.inj hfolder
    exact Or.inr ⟨rfl, by decide⟩

/-- **A file that lies in the cache is reported as downloaded**, although the command has failed;
and a command is run although the settings could not be copied. -/
theorem not_download_reported_leftover :
    ¬ (∀ (servers : ServerMap) (info : RucioDownloadInfo) (attempts : List Attempt),
        info.Built servers →
        StepsMeet (Retried.turn servers) (PassReports servers) { info } attempts) ∧
    (rucioDownloadWrapper sampleServers { sampleAttempt with systemReturn := 1 }
      (sampleJob ['n'])).map (fun pass ↦ pass.1.fdownloaded) = .ok true ∧
    (rucioDownloadWrapper sampleServers { sampleAttempt with copyFault := .copyFile none }
      (sampleJob ['n'])).map (fun pass ↦ (pass.1.fdownloaded, pass.2.isSome)) =
        .ok (true, true) := by
  refine ⟨fun hall ↦ ?_, by decide +kernel, by decide +kernel⟩
  have hloaded : (sampleJob ['n']).Loaded sampleServers := (fresh_sampleJob ['n']).toLoaded
  have hleft : (sampleJob ['n']).AttemptsLeft := by decide
  obtain ⟨command, hpass, hturn⟩ := @downloaderTurn_attempt sampleServers (sampleJob ['n'])
    { sampleAttempt with systemReturn := 1 } hloaded hleft
  obtain ⟨hreports, -⟩ := hall sampleServers (sampleJob ['n'])
    [{ sampleAttempt with systemReturn := 1 }] (built_sampleJob ['n']) _
    (turn_eq_some rfl hturn)
  obtain ⟨_, _, _, _, -, -, -, -, -, hzero, -⟩ := (hreports _ _ hpass).1 rfl
  exact absurd hzero (by decide)

end FusePosix
