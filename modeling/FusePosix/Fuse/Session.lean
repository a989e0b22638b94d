import FusePosix.Fuse.System

/-!
# Reads under way

A `rucio_read` is not atomic. Here it is a sequence of atomic steps, one for each access to a shared
table, and any number of reads may be under way at the same time. Everything else is as in
`Mount.step`.

What a step can do to the mount is said once again (`ReadStep`, `begins_eq_some` and its siblings).
The two systems agree where they can be compared: a read that nobody interrupts does the same in
both (`exec_uninterrupted`), so every run of the coarse system is one of the fine system
(`exists_exec_session`). The file cache stays empty in both (`session_isCached_eq_false`).
-/

namespace FusePosix

open Transition

/-! ### Steps -/

/-- The next access of a read to a shared table. -/
inductive ReadPoint where
  | isCached
  | isDownloading
  | appendNewDownload
  | setDownloading
  deriving DecidableEq, Repr

/-- A read that is under way, behind the directory checks. -/
structure Reader where
  call : ReadCall
  wanted : Wanted
  point : ReadPoint

/-- How a step of a read ends: with the answer, or in front of the next access. -/
inductive Progress where
  | done (result : ℤ × Str)
  | next (reader : Reader)

/-- What follows from the checks. -/
def Checked.progress (call : ReadCall) : Checked → Progress
  | .answered result => .done (result, [])
  | .file wanted => .next ⟨call, wanted, .isCached⟩

/-- A read up to its first access. -/
def ReadCall.begins (call : ReadCall) (m : Mount) : Except Fault (Progress × Mount) := do
  let (checked, m) ← onRest (readChecks call.io call.path call.caller) m
  return (checked.progress call, m)

/-- A read from one access to the next. -/
def Reader.advance (r : Reader) (m : Mount) : Except Fault (Progress × Mount) :=
  match r.point with
  | .isCached => do
    if !m.isCached r.wanted.cachePath then
      return (.next { r with point := .isDownloading }, m)
    else
      let (result, m) ← readFile r.call.io r.wanted r.call.caller r.call.size r.call.offset m
      return (.done result, m)
  | .isDownloading =>
    if m.isDownloading r.call.path then return (.done (-eINPROGRESS, []), m)
    else return (.next { r with point := .appendNewDownload }, m)
  | .appendNewDownload => do
    let info ← RucioDownloadInfo.ofPath m.rest.servers r.wanted.did r.call.path
      r.call.caller.username
    return (.next { r with point := .setDownloading }, m.appendNewDownload info)
  | .setDownloading => return (.done (-eAGAIN, []), m.setDownloading r.call.path)

/-- The mount and the reads that are under way. -/
structure Session where
  mount : Mount
  readers : List Reader := []

/-- One step of the system. -/
inductive SessionAction where
  | begins (call : ReadCall)
  /-- Read `k` goes on. -/
  | continues (k : ℕ)
  | background (b : Background)

namespace Session

/-- A new read is under way, unless it has its answer already. -/
def enter (s : Session) : Progress × Mount → Session
  | (.done _, mount) => { s with mount }
  | (.next r, mount) => { mount, readers := s.readers ++ [r] }

/-- Read `k` is in front of its next access, unless it has its answer. -/
def settle (s : Session) (k : ℕ) : Progress × Mount → Session
  | (.done _, mount) => { mount, readers := s.readers.eraseIdx k }
  | (.next r, mount) => { mount, readers := s.readers.set k r }

/-- The session after a step. -/
def step (s : Session) : SessionAction → Option Session
  | .begins call => (call.begins s.mount).toOption.map s.enter
  | .continues k => s.readers[k]?.bind fun r ↦ (r.advance s.mount).toOption.map (s.settle k)
  | .background b => (s.mount.background b).map fun mount ↦ { s with mount }

/-- The session before the first call. -/
def start (rest : State) : Session := { mount := Mount.start rest }

end Session

/-! ### What a step can do -/

/-- The outcomes of a step of a read under way, one for each way through `Reader.advance`. -/
inductive ReadStep (r : Reader) (m : Mount) : Progress → Mount → Prop
  /-- The file is not in the cache. -/
  | notCached (hpoint : r.point = .isCached) (hcached : m.isCached r.wanted.cachePath = false) :
      ReadStep r m (.next { r with point := .isDownloading }) m
  /-- The file is there. -/
  | cached (result : ℤ × Str) (m' : Mount) (hpoint : r.point = .isCached)
      (hcached : m.isCached r.wanted.cachePath = true)
      (hread : readFile r.call.io r.wanted r.call.caller r.call.size r.call.offset m =
        .ok (result, m')) :
      ReadStep r m (.done result) m'
  /-- The path has a flag. -/
  | flagged (hpoint : r.point = .isDownloading) (hflag : m.isDownloading r.call.path = true) :
      ReadStep r m (.done (-eINPROGRESS, [])) m
  /-- The path has none. -/
  | notFlagged (hpoint : r.point = .isDownloading) (hflag : m.isDownloading r.call.path = false) :
      ReadStep r m (.next { r with point := .appendNewDownload }) m
  /-- A job is handed over. -/
  | appended (info : RucioDownloadInfo) (hpoint : r.point = .appendNewDownload)
      (hinfo : RucioDownloadInfo.ofPath m.rest.servers r.wanted.did r.call.path
        r.call.caller.username = .ok info) :
      ReadStep r m (.next { r with point := .setDownloading }) (m.appendNewDownload info)
  /-- The flag is set. -/
  | started (hpoint : r.point = .setDownloading) :
      ReadStep r m (.done (-eAGAIN, [])) (m.setDownloading r.call.path)

section Steps

variable {s s' : Session}

theorem readStep_of_advance {r : Reader} {m m' : Mount} {progress : Progress}
    (h : r.advance m = .ok (progress, m')) : ReadStep r m progress m' := by
  obtain ⟨call, wanted, point⟩ := r
  cases point with
  | isCached =>
    simp only [Reader.advance] at h
    split_ifs at h with hcached
    · obtain ⟨rfl, rfl⟩ := Prod.mk.inj (Except.ok.inj h)
      exact .notCached rfl (by simpa using hcached)
    · obtain ⟨⟨result, m₁⟩, hread, h⟩ := bind_eq_ok.1 h
      obtain ⟨rfl, rfl⟩ := Prod.mk.inj (Except.ok.inj h)
      exact .cached result m₁ rfl (by simpa using hcached) hread
  | isDownloading =>
    simp only [Reader.advance] at h
    split_ifs at h with hflag
    · obtain ⟨rfl, rfl⟩ := Prod.mk.inj (Except.ok.inj h)
      exact .flagged rfl hflag
    · obtain ⟨rfl, rfl⟩ := Prod.mk.inj (Except.ok.inj h)
      exact .notFlagged rfl (by simpa using hflag)
  | appendNewDownload =>
    obtain ⟨info, hinfo, h⟩ := bind_eq_ok.1 h
    obtain ⟨rfl, rfl⟩ := Prod.mk.inj (Except.ok.inj h)
    exact .appended info rfl hinfo
  | setDownloading =>
    obtain ⟨rfl, rfl⟩ := Prod.mk.inj (Except.ok.inj h)
    exact .started rfl

@[simp] theorem mount_enter (s : Session) (progress : Progress) (m : Mount) :
    (s.enter (progress, m)).mount = m := by
  cases progress <;> rfl

@[simp] theorem mount_settle (s : Session) (k : ℕ) (progress : Progress) (m : Mount) :
    (s.settle k (progress, m)).mount = m := by
  cases progress <;> rfl

theorem begins_eq_some {call : ReadCall} (h : s.step (.begins call) = some s') :
    ∃ checked rest, readChecks call.io call.path call.caller s.mount.rest = .ok (checked, rest) ∧
      s.enter (checked.progress call, { s.mount with rest }) = s' := by
  obtain ⟨⟨progress, m⟩, hbegins, rfl⟩ := map_toOption_eq_some h
  obtain ⟨⟨checked, m₁⟩, hchecks, hret⟩ := bind_eq_ok.1 hbegins
  obtain ⟨rest, hrest, rfl⟩ := onRest_eq_ok hchecks
  obtain ⟨rfl, rfl⟩ := Prod.mk.inj (Except.ok.inj hret)
  exact ⟨checked, rest, hrest, rfl⟩

theorem continues_eq_some {k : ℕ} (h : s.step (.continues k) = some s') :
    ∃ r progress m, s.readers[k]? = some r ∧ ReadStep r s.mount progress m ∧
      s.settle k (progress, m) = s' := by
  obtain ⟨r, hr, h⟩ := Option.bind_eq_some_iff.1 h
  obtain ⟨⟨progress, m⟩, hadvance, rfl⟩ := map_toOption_eq_some h
  exact ⟨r, progress, m, hr, readStep_of_advance hadvance, rfl⟩

theorem background_eq_some {b : Background} (h : s.step (.background b) = some s') :
    ∃ m, s.mount.background b = some m ∧ { s with mount := m } = s' :=
  Option.map_eq_some_iff.1 h

end Steps

/-! ### The coarse system inside the fine one -/

section Uninterrupted

variable {m m' : Mount} {readers : List Reader} {r : Reader}

theorem step_last_done {result : ℤ × Str} (h : r.advance m = .ok (.done result, m')) :
    Session.step ⟨m, readers ++ [r]⟩ (.continues readers.length) = some ⟨m', readers⟩ := by
  show (readers ++ [r])[readers.length]?.bind _ = _
  rw [List.getElem?_concat_length, Option.bind_some, h]
  show some (Session.mk m' ((readers ++ [r]).eraseIdx readers.length)) = _
  rw [List.eraseIdx_append_of_length_le le_rfl, Nat.sub_self, List.eraseIdx_cons_zero,
    List.append_nil]

theorem step_last_next {r' : Reader} (h : r.advance m = .ok (.next r', m')) :
    Session.step ⟨m, readers ++ [r]⟩ (.continues readers.length) = some ⟨m', readers ++ [r']⟩ := by
  show (readers ++ [r])[readers.length]?.bind _ = _
  rw [List.getElem?_concat_length, Option.bind_some, h]
  show some (Session.mk m' ((readers ++ [r]).set readers.length r')) = _
  rw [List.set_append_right _ _ le_rfl, Nat.sub_self, List.set_cons_zero]

/-- If nobody interrupts it, the last read ends in a state of the mount. -/
def Reader.EndsIn (r : Reader) (m m' : Mount) : Prop :=
  ∃ n, ∀ readers, exec Session.step ⟨m, readers ++ [r]⟩
    (List.replicate n (.continues readers.length)) = some ⟨m', readers⟩

theorem endsIn_of_done {result : ℤ × Str} (h : r.advance m = .ok (.done result, m')) :
    r.EndsIn m m' := by
  refine ⟨1, fun readers ↦ ?_⟩
  rw [List.replicate_one, exec_cons, step_last_done h, Option.bind_some, exec_nil]

theorem endsIn_of_next {r' : Reader} {m'' : Mount} (h : r.advance m = .ok (.next r', m'))
    (hend : r'.EndsIn m' m'') : r.EndsIn m m'' := by
  obtain ⟨n, hn⟩ := hend
  refine ⟨n + 1, fun readers ↦ ?_⟩
  rw [List.replicate_succ, exec_cons, step_last_next h, Option.bind_some]
  exact hn readers

/-- Behind the look at the flag, a read hands its job over and sets the flag. -/
theorem endsIn_appendNewDownload {call : ReadCall} {wanted : Wanted} {info : RucioDownloadInfo}
    (h : RucioDownloadInfo.ofPath m.rest.servers wanted.did call.path call.caller.username =
      .ok info) :
    (Reader.mk call wanted .appendNewDownload).EndsIn m
      ((m.appendNewDownload info).setDownloading call.path) := by
  have happend : (Reader.mk call wanted .appendNewDownload).advance m =
      .ok (.next ⟨call, wanted, .setDownloading⟩, m.appendNewDownload info) := by
    show (RucioDownloadInfo.ofPath _ _ _ _ >>= fun info ↦ _) = _
    rw [h, ok_bind, pure_eq_ok]
  exact endsIn_of_next happend (endsIn_of_done rfl)

/-- Behind its checks, a read that nobody interrupts does what `rucioRead` does. -/
theorem endsIn_of_rucioRead {call : ReadCall} {wanted : Wanted} {result : ℤ × Str}
    (h : (if !m.isCached wanted.cachePath then
        if m.isDownloading call.path then .ok ((-eINPROGRESS, []), m)
        else do
          let info ← RucioDownloadInfo.ofPath m.rest.servers wanted.did call.path
            call.caller.username
          return ((-eAGAIN, []), (m.appendNewDownload info).setDownloading call.path)
      else readFile call.io wanted call.caller call.size call.offset m :
        Except Fault ((ℤ × Str) × Mount)) = .ok (result, m')) :
    (Reader.mk call wanted .isCached).EndsIn m m' := by
  split_ifs at h with hcached hflag
  · obtain ⟨rfl, rfl⟩ := Prod.mk.inj (Except.ok.inj h)
    refine endsIn_of_next (if_pos hcached) (@endsIn_of_done _ _ _ (-eINPROGRESS, []) ?_)
    show (if _ then _ else _) = _
    rw [if_pos hflag, pure_eq_ok]
  · obtain ⟨info, hinfo, h⟩ := bind_eq_ok.1 h
    obtain ⟨rfl, rfl⟩ := Prod.mk.inj (Except.ok.inj h)
    refine endsIn_of_next (if_pos hcached) (endsIn_of_next ?_ (endsIn_appendNewDownload hinfo))
    show (if _ then _ else _) = _
    rw [if_neg hflag, pure_eq_ok]
  · refine @endsIn_of_done _ _ _ result ?_
    show (if _ then _ else _) = _
    rw [if_neg hcached]
    show (readFile _ _ _ _ _ _ >>= fun result ↦ _) = _
    rw [h]
    rfl

/-- **A read that nobody interrupts does the same in both systems.** -/
theorem exec_uninterrupted {call : ReadCall} {result : ℤ × Str} (h : call.run m = .ok (result, m'))
    (readers : List Reader) :
    ∃ n, exec Session.step ⟨m, readers⟩
      (.begins call :: List.replicate n (.continues readers.length)) = some ⟨m', readers⟩ := by
  obtain ⟨⟨checked, m₁⟩, hchecks, h⟩ := bind_eq_ok.1 h
  have hbegins : Session.step ⟨m, readers⟩ (.begins call) =
      some (Session.enter ⟨m, readers⟩ (checked.progress call, m₁)) := by
    show (ReadCall.begins _ _).toOption.map _ = _
    rw [ReadCall.begins, hchecks]
    rfl
  cases checked with
  | answered answer =>
    obtain ⟨rfl, rfl⟩ := Prod.mk.inj (Except.ok.inj h)
    refine ⟨0, ?_⟩
    rw [exec_cons, hbegins]
    rfl
  | file wanted =>
    obtain ⟨n, hn⟩ := endsIn_of_rucioRead h
    refine ⟨n, ?_⟩
    rw [exec_cons, hbegins]
    exact hn readers

/-- **Every run of the coarse system is one of the fine system.** -/
theorem exists_exec_session {actions : List MountAction} :
    ∀ {m : Mount}, exec Mount.step m actions = some m' →
      ∃ fine, exec Session.step ⟨m, []⟩ fine = some ⟨m', []⟩ := by
  induction actions with
  | nil =>
    intro m h
    obtain rfl := Option.some.inj h
    exact ⟨[], rfl⟩
  | cons a actions ih =>
    intro m h
    obtain ⟨m₁, hstep, hrest⟩ := Option.bind_eq_some_iff.1 h
    obtain ⟨fine, hfine⟩ := ih hrest
    cases a with
    | read call =>
      obtain ⟨⟨result, m₁⟩, hrun, rfl⟩ := map_toOption_eq_some hstep
      obtain ⟨n, hn⟩ := exec_uninterrupted hrun []
      have hread : exec Session.step ⟨m, []⟩
          (.begins call :: List.replicate n (.continues 0)) = some ⟨m₁, []⟩ := hn
      refine ⟨(.begins call :: List.replicate n (.continues 0)) ++ fine, ?_⟩
      rw [exec_append, hread, Option.bind_some]
      exact hfine
    | background b =>
      refine ⟨.background b :: fine, ?_⟩
      have hstep' : Session.step ⟨m, []⟩ (.background b) = some ⟨m₁, []⟩ := by
        show (m.background b).map _ = _
        rw [show m.background b = some m₁ from hstep, Option.map_some]
      rw [exec_cons, hstep', Option.bind_some]
      exact hfine

end Uninterrupted

/-! ### The file cache -/

section FileCache

variable {s s' : Session}

/-- No step puts a file into the cache. -/
theorem downloadCache_step {a : SessionAction} (h : s.mount.rucioDownloadCache = Table.empty)
    (hstep : s.step a = some s') : s'.mount.rucioDownloadCache = Table.empty := by
  cases a with
  | begins call =>
    obtain ⟨checked, rest, -, rfl⟩ := begins_eq_some hstep
    rwa [mount_enter]
  | continues k =>
    obtain ⟨r, progress, m, -, hread, rfl⟩ := continues_eq_some hstep
    rw [mount_settle]
    cases hread with
    | cached result m hpoint hcached hread =>
      rw [Mount.isCached, h, Table.contains_empty] at hcached
      exact absurd hcached (by decide)
    | notCached | flagged | notFlagged | appended | started => exact h
  | background b =>
    obtain ⟨m, hm, rfl⟩ := background_eq_some hstep
    rcases background_cases hm with ⟨-, rest, rfl⟩ | ⟨w, pipeline, -, -, rfl⟩
    · exact h
    · exact h

/-- **The file cache stays empty**, however the reads interrupt each other. -/
theorem session_isCached_eq_false {rest : State} {actions : List SessionAction}
    (hrun : exec Session.step (Session.start rest) actions = some s) (key : Str) :
    s.mount.isCached key = false := by
  have hempty : s.mount.rucioDownloadCache = Table.empty := by
    refine @run_induction _ _ Session.step (Session.start rest) (fun _ ↦ True)
      (fun _ s ↦ s.mount.rucioDownloadCache = Table.empty) rfl ?_ actions (fun _ _ ↦ trivial) s hrun
    intro as a s t hs _ hstep
    exact downloadCache_step hs hstep
  rw [Mount.isCached, hempty, Table.contains_empty]

end FileCache

end FusePosix
