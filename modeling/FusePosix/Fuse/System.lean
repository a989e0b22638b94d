import FusePosix.Fuse.Lookup
import FusePosix.Lib.Transition

/-!
# The running file system

The mount under the calls of its users and the steps of its own threads. A callback is one atomic
step. Callbacks alternate with the steps of the download workers and the ends of login threads, in
any order; what the world answers is chosen anew for each step.

A step that ends in an exception or in undefined behaviour ends the run: it is not enabled. So what
is said of runs says nothing about what a process does once it has done something undefined.

What a step can do to the mount is said once (`background_cases`, `readOutcome_of_run`); everything
about runs is derived from that.

**Assumed**:

* Callbacks do not overlap. FUSE calls them from several threads; what two listings do to each
  other is said in `Rest/Overlap.lean`, and what two reads do in `Fuse/Races.lean`.
* A GET is one entry of the log, the request it begins with. What libcurl sends besides when a
  server redirects it is told by `Request.transfer`.
* A login thread finds the arguments that it was started with (`oidcLoginEnds`).
* `fclose` returns from the null handle that a failed download hands it (`rucioDownloadWrapper`);
  `Session.stepOn` is the system without this.
-/

namespace FusePosix

open Transition

/-! ### Steps -/

/-- What happens besides reads. -/
inductive Background where
  | getattr (io : Io) (path : Str) (caller : Caller) (st : Stat)
  | readdir (io : Io) (path : Str) (caller : Caller)
  | work (w : WorkerAction)
  /-- Login thread `k` ends. -/
  | loginEnds (io : Io) (k : ℕ)

/-- A call of `rucio_read`. -/
structure ReadCall where
  io : Io
  path : Str
  caller : Caller
  size : ℕ
  offset : ℤ

/-- One step of the system. -/
inductive MountAction where
  | read (call : ReadCall)
  | background (b : Background)

/-- The mount after a step other than a read. -/
def Mount.background (m : Mount) : Background → Option Mount
  | .getattr io path caller st => (rucioGetattr io path caller st m).toOption.map Prod.snd
  | .readdir io path caller => (rucioReaddir io path caller m).toOption.map Prod.snd
  | .work w => (m.pipeline.work m.rest.servers w).map fun pipeline ↦ { m with pipeline }
  | .loginEnds io k => (oidcLoginEnds io k m.rest).toOption.map fun rest ↦ { m with rest }

/-- A call of `rucio_read` on the mount. -/
def ReadCall.run (call : ReadCall) (m : Mount) : Except Fault ((ℤ × Str) × Mount) :=
  rucioRead call.io call.path call.caller call.size call.offset m

/-- The mount after a step. -/
def Mount.step (m : Mount) : MountAction → Option Mount
  | .read call => (call.run m).toOption.map Prod.snd
  | .background b => m.background b

/-- The mount before the first call: whatever the start-up has left in the tables of the REST
client, with no file, no flag and no job. -/
def Mount.start (rest : State) : Mount := { rest }

/-- A mount with one server, for which the user has a token that is still valid. -/
def sampleMount : Mount := Mount.start {
  servers := Table.empty.insert ['s'] (sampleServer.setToken 7 ⟨['t'], {}, 2000000⟩)
  serverNames := [['s']] }

/-- A read of the path `/s/u/n` on that mount. -/
def sampleRead : ReadCall := ⟨sampleIo, ['/', 's', '/', 'u', '/', 'n'], sampleCaller, 8, 0⟩

/-! ### What a step can do -/

section Cases

variable {m m' : Mount}

/-- `rucio_getattr` changes the tables of the REST client only. -/
theorem rucioGetattr_eq_ok {io : Io} {path : Str} {caller : Caller} {st : Stat} {r : ℤ × Stat}
    (h : rucioGetattr io path caller st m = .ok (r, m')) : ∃ rest, m' = { m with rest } := by
  rcases getattrRuns_of_eq_ok h with - | - | -
  · exact ⟨m.rest, rfl⟩
  · exact ⟨_, rfl⟩
  · exact ⟨_, rfl⟩

/-- `rucio_readdir` changes the tables of the REST client only. -/
theorem rucioReaddir_eq_ok {io : Io} {path : Str} {caller : Caller} {r : ℤ × List Str}
    (h : rucioReaddir io path caller m = .ok (r, m')) : ∃ rest, m' = { m with rest } := by
  rcases readdirRuns_of_eq_ok h with - | -
  · exact ⟨_, rfl⟩
  · exact ⟨_, rfl⟩

/-- A read of a cached file leaves the pipeline alone. -/
theorem pipeline_readFile {io : Io} {wanted : Wanted} {caller : Caller} {size : ℕ} {offset : ℤ}
    {m m' : Mount} {result : ℤ × Str}
    (h : readFile io wanted caller size offset m = .ok (result, m')) :
    m'.pipeline = m.pipeline := by
  obtain ⟨⟨fileSize, m₁⟩, hsize, h⟩ := bind_eq_ok.1 h
  obtain ⟨rest, -, rfl⟩ := onRest_eq_ok hsize
  simp only at h
  split_ifs at h with hoffset
  · obtain ⟨-, rfl⟩ := Prod.mk.inj (Except.ok.inj h)
    rfl
  · obtain ⟨content, -, h⟩ := bind_eq_ok.1 h
    obtain ⟨-, rfl⟩ := Prod.mk.inj (Except.ok.inj h)
    rfl

/-- **A step besides the reads** changes the tables of the REST client, or is a worker's. -/
theorem background_cases {b : Background} (h : m.background b = some m') :
    ((∀ w, b ≠ .work w) ∧ ∃ rest, m' = { m with rest }) ∨
      ∃ w pipeline, b = .work w ∧ m.pipeline.work m.rest.servers w = some pipeline ∧
        m' = { m with pipeline } := by
  cases b with
  | getattr io path caller st =>
    obtain ⟨⟨r, m₁⟩, hrun, rfl⟩ := map_toOption_eq_some h
    exact Or.inl ⟨fun w ↦ by simp, rucioGetattr_eq_ok hrun⟩
  | readdir io path caller =>
    obtain ⟨⟨r, m₁⟩, hrun, rfl⟩ := map_toOption_eq_some h
    exact Or.inl ⟨fun w ↦ by simp, rucioReaddir_eq_ok hrun⟩
  | work w =>
    obtain ⟨pipeline, hwork, rfl⟩ := Option.map_eq_some_iff.1 h
    exact Or.inr ⟨w, pipeline, rfl, hwork, rfl⟩
  | loginEnds io k =>
    obtain ⟨rest, -, rfl⟩ := map_toOption_eq_some h
    exact Or.inl ⟨fun w ↦ by simp, rest, rfl⟩

/-- How a read ends: with the answer, and with what it has done to the mount besides the tables of
the REST client. -/
inductive ReadOutcome (call : ReadCall) (m : Mount) : ℤ → Mount → Prop
  /-- The caller is refused, or the path is a directory. -/
  | answered (rest : State) (result : ℤ) (h : result = -eACCES ∨ result = -1) :
      ReadOutcome call m result { m with rest }
  /-- The path has a flag. -/
  | inProgress (rest : State) (h : m.isDownloading call.path = true) :
      ReadOutcome call m (-eINPROGRESS) { m with rest }
  /-- A job is handed to the pipeline and a flag is set. -/
  | started (rest : State) (wanted : Wanted) (info : RucioDownloadInfo)
      (hflag : m.isDownloading call.path = false) (hwanted : wantedOf call.path = .ok wanted)
      (hinfo : RucioDownloadInfo.ofPath rest.servers wanted.did call.path call.caller.username =
        .ok info) :
      ReadOutcome call m (-eAGAIN)
        ((Mount.appendNewDownload { m with rest } info).setDownloading call.path)
  /-- The file is there. -/
  | cached (wanted : Wanted) (result : ℤ) (m' : Mount)
      (hwanted : wantedOf call.path = .ok wanted) (h : m.isCached wanted.cachePath = true) :
      ReadOutcome call m result m'

/-- The checks in front of a read answer with an error, or say what is wanted. -/
theorem readChecks_eq_ok {io : Io} {path : Str} {caller : Caller} {s s' : State}
    {checked : Checked} (h : readChecks io path caller s = .ok (checked, s')) :
    (∃ result, checked = .answered result ∧ (result = -eACCES ∨ result = -1)) ∨
      ∃ wanted, checked = .file wanted ∧ wantedOf path = .ok wanted := by
  obtain ⟨⟨authenticated, s₁⟩, -, h⟩ := bind_eq_ok.1 h
  simp only at h
  split_ifs at h with hauth
  · exact Or.inl ⟨_, (Prod.mk.inj (Except.ok.inj h)).1.symm, Or.inl rfl⟩
  · obtain ⟨⟨isFile, s₂⟩, -, h⟩ := bind_eq_ok.1 h
    simp only at h
    split_ifs at h with hfile
    · obtain ⟨wanted, hwanted, h⟩ := bind_eq_ok.1 h
      exact Or.inr ⟨wanted, (Prod.mk.inj (Except.ok.inj h)).1.symm, hwanted⟩
    · exact Or.inl ⟨_, (Prod.mk.inj (Except.ok.inj h)).1.symm, Or.inr rfl⟩

/-- What is wanted by a read carries its path. -/
theorem wantedOf_eq_ok {path : Str} {wanted : Wanted} (h : wantedOf path = .ok wanted) :
    wanted.path = path ∧ getDid path = .ok wanted.did := by
  obtain ⟨did, hdid, h⟩ := bind_eq_ok.1 h
  obtain ⟨scope, -, h⟩ := bind_eq_ok.1 h
  obtain ⟨name, -, h⟩ := bind_eq_ok.1 h
  obtain rfl := Except.ok.inj h
  exact ⟨rfl, hdid⟩

/-- **A read has one of four outcomes.** -/
theorem readOutcome_of_run {call : ReadCall} {r : ℤ × Str} (h : call.run m = .ok (r, m')) :
    ReadOutcome call m r.1 m' := by
  obtain ⟨⟨checked, m₁⟩, hchecks, h⟩ := bind_eq_ok.1 h
  obtain ⟨rest, hrest, rfl⟩ := onRest_eq_ok hchecks
  rcases readChecks_eq_ok hrest with ⟨result, rfl, hresult⟩ | ⟨wanted, rfl, hwanted⟩
  · obtain ⟨rfl, rfl⟩ := Prod.mk.inj (Except.ok.inj h)
    exact .answered rest result hresult
  · simp only at h
    split_ifs at h with hcached hflag
    · obtain ⟨rfl, rfl⟩ := Prod.mk.inj (Except.ok.inj h)
      exact .inProgress rest hflag
    · obtain ⟨info, hinfo, h⟩ := bind_eq_ok.1 h
      obtain ⟨rfl, rfl⟩ := Prod.mk.inj (Except.ok.inj h)
      exact .started rest wanted info (by simpa [Mount.isDownloading] using hflag) hwanted hinfo
    · exact .cached wanted r.1 m' hwanted (by simpa [Mount.isCached] using hcached)

end Cases

/-! ### Tables nobody keeps up to date -/

section Tables

variable {m m' : Mount}

/-- The flags after a read has started a download. -/
theorem isDownloading_started (m : Mount) (info : RucioDownloadInfo) (path key : Str) :
    ((m.appendNewDownload info).setDownloading path).isDownloading key =
      (decide (key = path) || m.isDownloading key) :=
  Table.contains_emplace _ _ _ _

/-- **No step puts a file into the cache**, and with an empty cache none takes a flag away. -/
theorem tables_step {a : MountAction} (h : m.rucioDownloadCache = Table.empty)
    (hstep : m.step a = some m') :
    m'.rucioDownloadCache = Table.empty ∧
      ∀ path, m.isDownloading path = true → m'.isDownloading path = true := by
  cases a with
  | read call =>
    obtain ⟨⟨⟨result, buffer⟩, m₁⟩, hrun, rfl⟩ := map_toOption_eq_some hstep
    have hout : ReadOutcome call m result m₁ := readOutcome_of_run hrun
    cases hout with
    | answered rest result hresult => exact ⟨h, fun path hpath ↦ hpath⟩
    | inProgress rest hflag => exact ⟨h, fun path hpath ↦ hpath⟩
    | started rest wanted info hflag hwanted hinfo =>
      refine ⟨h, fun path hpath ↦ ?_⟩
      rw [isDownloading_started, Bool.or_eq_true]
      exact Or.inr hpath
    | cached wanted result m' hwanted hcached =>
      rw [Mount.isCached, h, Table.contains_empty] at hcached
      exact absurd hcached (by decide)
  | background b =>
    rcases background_cases hstep with ⟨-, rest, rfl⟩ | ⟨w, pipeline, -, -, rfl⟩
    · exact ⟨h, fun path hpath ↦ hpath⟩
    · exact ⟨h, fun path hpath ↦ hpath⟩

/-- What `tables_step` says, of a whole run. -/
theorem tables_run {actions : List MountAction} (h : m.rucioDownloadCache = Table.empty)
    (hrun : exec Mount.step m actions = some m') :
    m'.rucioDownloadCache = Table.empty ∧
      ∀ path, m.isDownloading path = true → m'.isDownloading path = true := by
  refine @run_induction _ _ Mount.step m (fun _ ↦ True)
    (fun _ m' ↦ m'.rucioDownloadCache = Table.empty ∧
      ∀ path, m.isDownloading path = true → m'.isDownloading path = true)
    ⟨h, fun path hpath ↦ hpath⟩ ?_ actions (fun _ _ ↦ trivial) m' hrun
  rintro as a s t ⟨hs, hflags⟩ - hstep
  obtain ⟨ht, hkeep⟩ := tables_step hs hstep
  exact ⟨ht, fun path hpath ↦ hkeep path (hflags path hpath)⟩

/-- The file cache stays empty. -/
theorem isCached_eq_false {rest : State} {actions : List MountAction} {m : Mount}
    (hrun : exec Mount.step (Mount.start rest) actions = some m) (key : Str) :
    m.isCached key = false := by
  have hempty : (Mount.start rest).rucioDownloadCache = Table.empty := rfl
  rw [Mount.isCached, (tables_run hempty hrun).1, Table.contains_empty]

end Tables

end FusePosix
