import FusePosix.Fuse.Lookup
import FusePosix.Fuse.Session
import Mathlib.Logic.Relation

/-!
# How the state of the REST client moves

The callbacks reach the state of the REST client in two ways only: by a call of the client, or by
something that concerns tokens and logins (`Quiet`). So a callback is a sequence of such steps, and
so is a whole run of the mount, however its reads interfere (`clientSteps_session`). What survives
the steps of the client survives everything.

This is the bridge from the client to the mount. On the one side there are the invariants of the
client, which are shown for its calls (`FusePosix.Rest.Exchange`). On the other side there are the
ways in which a callback can end (`GetattrEnds`, `ReaddirEnds`, `ChecksEnd`), each of which names
the calls it has made. Nothing else has to be known about the callbacks: a new invariant of the
client holds of the mount by `clientSteps_session`, and no callback is looked at again.

**Not claimed:** which calls a callback makes, or for whom. That is in `FusePosix.Fuse.Acts`, where
the steps are finer.

**Assumed:** that the calls of callbacks which are under way at the same time follow one another.
A read is taken apart into its accesses to the flags and to the pipeline (`FusePosix.Fuse.Session`),
but a call of the client is one step. What happens when the accesses to a cache of two calls
interleave is the subject of `FusePosix.Rest.Overlap`.
-/

namespace FusePosix

open Transition Relation

/-! ### Steps of the client -/

/-- One step of the REST client: a call, or something quiet. -/
inductive ClientStep (s t : State) : Prop where
  | call {call : RestCall} {answer : Answer} (h : call.run s = .ok (answer, t))
  | quiet (h : Quiet s t)

/-- Any number of steps of the REST client. -/
abbrev ClientSteps : State → State → Prop := ReflTransGen ClientStep

section Steps

variable {io : Io} {server scope name path : Str} {caller : Caller} {s t u : State}

/-- What is quiet is a step of the client. -/
theorem Quiet.clientSteps (h : Quiet s t) : ClientSteps s t := .single (.quiet h)

/-- A listing of scopes is a call of the client. -/
theorem run_scopes {scopes : List Str}
    (h : rucioListScopes io server caller s = .ok (scopes, t)) :
    RestCall.run ⟨io, caller, .scopes server⟩ s = .ok (.scopes scopes, t) :=
  bind_eq_ok.2 ⟨_, h, rfl⟩

/-- So is a listing of a scope, -/
theorem run_dids {dids : List RucioDid}
    (h : rucioListDids io scope server caller s = .ok (dids, t)) :
    RestCall.run ⟨io, caller, .dids server scope⟩ s = .ok (.dids dids, t) :=
  bind_eq_ok.2 ⟨_, h, rfl⟩

/-- a listing of a container, -/
theorem run_containerDids {dids : List RucioDid}
    (h : rucioListContainerDids io scope name server caller s = .ok (dids, t)) :
    RestCall.run ⟨io, caller, .containerDids server scope name⟩ s = .ok (.dids dids, t) :=
  bind_eq_ok.2 ⟨_, h, rfl⟩

/-- the question whether a path is a container, -/
theorem run_isContainer {value : Bool}
    (h : rucioIsContainer io path caller s = .ok (value, t)) :
    RestCall.run ⟨io, caller, .isContainer path⟩ s = .ok (.isContainer value, t) :=
  bind_eq_ok.2 ⟨_, h, rfl⟩

/-- and the question how long a file is. -/
theorem run_size {size : ℤ} (h : rucioGetSize io path caller s = .ok (size, t)) :
    RestCall.run ⟨io, caller, .size path⟩ s = .ok (.size size, t) :=
  bind_eq_ok.2 ⟨_, h, rfl⟩

/-- A call is a step of the client. -/
theorem clientSteps_run {call : RestCall} {answer : Answer} (h : call.run s = .ok (answer, t)) :
    ClientSteps s t :=
  .single (.call h)

/-- The gate is quiet. -/
theorem quiet_authGate {authenticated : Bool}
    (h : authGate io path caller s = .ok (authenticated, t)) : Quiet s t := by
  rw [authGate] at h
  split_ifs at h with hroot
  · obtain ⟨-, rfl⟩ := Prod.mk.inj (Except.ok.inj h)
    exact quiet_refl s
  · obtain ⟨⟨result, s₁⟩, hauth, hret⟩ := bind_eq_ok.1 h
    obtain ⟨-, rfl⟩ := Prod.mk.inj (Except.ok.inj hret)
    exact quiet_authenticateUser hauth

/-- So the gate is at most one step of the client. -/
theorem clientSteps_authGate {authenticated : Bool}
    (h : authGate io path caller s = .ok (authenticated, t)) : ClientSteps s t :=
  (quiet_authGate h).clientSteps

/-! ### Callbacks -/

/-- Looking at a path takes at most two calls: one for the parent or the kind of the path, and one
for its content or its size. -/
theorem GetattrEnds.clientSteps {st : Stat} {result : ℤ × Stat}
    (h : GetattrEnds io path caller st s result t) : ClientSteps s t := by
  -- one case for each way in which the callback ends; its premises are the calls
  induction h with
  | root | unknownServer => exact .refl
  | server _ _ _ hscopes => exact clientSteps_run (run_scopes hscopes)
  | unknownScope _ _ _ hscopes => exact clientSteps_run (run_scopes hscopes)
  | scope _ _ _ hscopes _ hdids =>
    exact (clientSteps_run (run_scopes hscopes)).trans (clientSteps_run (run_dids hdids))
  | container _ _ _ _ hcontainer _ _ hdids =>
    exact (clientSteps_run (run_isContainer hcontainer)).trans
      (clientSteps_run (run_containerDids hdids))
  | file _ _ _ _ hcontainer hsize =>
    exact (clientSteps_run (run_isContainer hcontainer)).trans (clientSteps_run (run_size hsize))

/-- Listing a directory takes one call, and a container is looked up before. -/
theorem ReaddirEnds.clientSteps {listed : ℤ × List Str}
    (h : ReaddirEnds io path caller s listed t) : ClientSteps s t := by
  induction h with
  | skipped | root => exact .refl
  | server _ _ _ hscopes => exact clientSteps_run (run_scopes hscopes)
  | scope _ _ _ _ hdids => exact clientSteps_run (run_dids hdids)
  | container _ _ _ _ _ hcontainer _ _ hdids =>
    exact (clientSteps_run (run_isContainer hcontainer)).trans
      (clientSteps_run (run_containerDids hdids))
  | file _ _ _ _ _ hcontainer => exact clientSteps_run (run_isContainer hcontainer)

/-- The checks of a read pass the gate, and look up whether the path is a container. -/
theorem ChecksEnd.clientSteps {checked : Checked} (h : ChecksEnd io path caller s checked t) :
    ClientSteps s t := by
  induction h with
  | refused hgate => exact clientSteps_authGate hgate
  | directory hgate => exact clientSteps_authGate hgate
  | container hgate hcontainer =>
    exact (clientSteps_authGate hgate).trans (clientSteps_run (run_isContainer hcontainer))
  | file hgate hcontainer =>
    exact (clientSteps_authGate hgate).trans (clientSteps_run (run_isContainer hcontainer))

end Steps

section Callbacks

variable {io : Io} {path : Str} {caller : Caller} {m m' : Mount}

/-- **`rucio_getattr` is made of steps of the client**: a hidden path makes none of them, and
somebody who is refused makes none behind the gate. -/
theorem clientSteps_getattr {st : Stat} {result : ℤ × Stat}
    (h : rucioGetattr io path caller st m = .ok (result, m')) : ClientSteps m.rest m'.rest := by
  rcases getattrRuns_of_eq_ok h with hname | hgate | ⟨-, -, hgate, hends⟩
  · exact .refl
  · exact clientSteps_authGate hgate
  · exact (clientSteps_authGate hgate).trans hends.clientSteps

/-- **So is `rucio_readdir`.** -/
theorem clientSteps_readdir {listed : ℤ × List Str}
    (h : rucioReaddir io path caller m = .ok (listed, m')) : ClientSteps m.rest m'.rest := by
  rcases readdirRuns_of_eq_ok h with hgate | ⟨hgate, hends⟩
  · exact clientSteps_authGate hgate
  · exact (clientSteps_authGate hgate).trans hends.clientSteps

/-- Reading a file that is there asks for its size. -/
theorem clientSteps_readFile {wanted : Wanted} {size : ℕ} {offset : ℤ} {result : ℤ × Str}
    (h : readFile io wanted caller size offset m = .ok (result, m')) :
    ClientSteps m.rest m'.rest := by
  obtain ⟨⟨fileSize, m₁⟩, hcall, h⟩ := bind_eq_ok.1 h
  obtain ⟨t, hsize, rfl⟩ := onRest_eq_ok hcall
  have hsteps : ClientSteps m.rest t := clientSteps_run (@run_size io _ caller m.rest t _ hsize)
  -- the rest is about the file on the disk
  simp only at h
  split_ifs at h with hoffset
  · obtain ⟨-, rfl⟩ := Prod.mk.inj (Except.ok.inj h)
    exact hsteps
  · obtain ⟨content, -, h⟩ := bind_eq_ok.1 h
    obtain ⟨-, rfl⟩ := Prod.mk.inj (Except.ok.inj h)
    exact hsteps

/-- What goes on beside the reads is made of steps of the client too: the other callbacks, and the
ends of logins. The download workers do not touch its state. -/
theorem clientSteps_background {b : Background} (h : m.background b = some m') :
    ClientSteps m.rest m'.rest := by
  rcases b with ⟨io, path, caller, st⟩ | ⟨io, path, caller⟩ | w | ⟨io, k⟩
  · obtain ⟨⟨result, m₁⟩, hrun, rfl⟩ := map_toOption_eq_some h
    exact clientSteps_getattr hrun
  · obtain ⟨⟨listed, m₁⟩, hrun, rfl⟩ := map_toOption_eq_some h
    exact clientSteps_readdir hrun
  · obtain ⟨pipeline, -, rfl⟩ := Option.map_eq_some_iff.1 h
    exact .refl
  · obtain ⟨rest, hrest, rfl⟩ := map_toOption_eq_some h
    exact (quiet_oidcLoginEnds hrest).clientSteps

end Callbacks

/-! ### Runs of the mount -/

/-- **A step of the mount is made of steps of the client.** -/
theorem clientSteps_step {s s' : Session} {a : SessionAction} (h : s.step a = some s') :
    ClientSteps s.mount.rest s'.mount.rest := by
  -- a read begins, a read goes on, or something else happens
  rcases a with call | k | b
  · obtain ⟨checked, rest, hchecks, rfl⟩ := begins_eq_some h
    rw [mount_enter]
    exact (checksEnd_of_eq_ok hchecks).clientSteps
  · obtain ⟨r, progress, m, -, hread, rfl⟩ := continues_eq_some h
    rw [mount_settle]
    -- only the last stretch of a read calls the client again, for the size of the file
    induction hread with
    | cached result m' hpoint hcached hread => exact clientSteps_readFile hread
    | notCached | flagged | notFlagged | appended | started => exact .refl
  · obtain ⟨m, hm, rfl⟩ := background_eq_some h
    exact clientSteps_background hm

/-- **So is a whole run**, whatever its users do and however their reads interfere. -/
theorem clientSteps_session {rest : State} {actions : List SessionAction} {s : Session}
    (h : exec Session.step (Session.start rest) actions = some s) :
    ClientSteps rest s.mount.rest := by
  -- the invariant: the state of the client has been reached from the first one by its steps
  refine @run_induction _ _ Session.step (Session.start rest) (fun _ ↦ True)
    (fun _ s ↦ ClientSteps rest s.mount.rest) .refl ?_ actions (fun _ _ ↦ trivial) s h
  exact fun _ _ _ _ hs _ hstep ↦ hs.trans (clientSteps_step hstep)

end FusePosix
