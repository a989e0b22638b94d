import FusePosix.Fuse.Callbacks
import FusePosix.Rest.Exchange

/-!
# How attributes and directories come about

`rucioGetattr` and `rucioReaddir` tell from the depth of a path what they have to ask for, and they
do it apart from each other; the checks in front of a read do it once more. Here every way through
these functions has a name, together with the calls of the REST client it is made of (`GetattrEnds`,
`ReaddirEnds`, `ChecksEnd`). What is said about the callbacks elsewhere is said by going through
these cases.

A path is told apart by its depth: the root, a server, a scope, or something below a scope. The two
callbacks do not check the same things on the way. A lookup of a scope asks for its DIDs only if the
server lists the scope, while a listing asks for them in any case. And below a scope, a DID is taken
for what its own record says, wherever the path claims it to be.

**Not claimed:** the converse, that each way can be gone. Where that is needed, the definitions are
followed in the other direction (`FusePosix.Fuse.Mirror`). A callback whose depth is not defined
goes no way at all.
-/

namespace FusePosix

/-! ### Attributes -/

/-- What is filled in for every file. -/
def Stat.stamped (io : Io) (st : Stat) : Stat :=
  { st with uid := io.processUid, gid := io.processGid, atime := io.now, mtime := io.now }

/-- The ways through `rucio_getattr` behind the gate. -/
inductive GetattrEnds (io : Io) (path : Str) (caller : Caller) (st : Stat) (s : State) :
    ℤ × Stat → State → Prop
  /-- The root has the servers in it. -/
  | root (hroot : isRootPath path = true) :
      GetattrEnds io path caller st s (0, { st.stamped io with
        mode := directoryMode, nlink := 2 + (rucioListServers s).length }) s
  /-- There is no such server. -/
  | unknownServer (hroot : isRootPath path = false) (hdepth : pathDepth path = .ok 1)
      (hserver : serverExists s.servers (extractServerName path) = false) :
      GetattrEnds io path caller st s (-eNOENT, st.stamped io) s
  | server {scopes : List Str} {t : State} (hroot : isRootPath path = false)
      (hdepth : pathDepth path = .ok 1)
      (hserver : serverExists s.servers (extractServerName path) = true)
      (hscopes : rucioListScopes io (extractServerName path) caller s = .ok (scopes, t)) :
      GetattrEnds io path caller st s (0, { st.stamped io with
        mode := directoryMode, nlink := 2 + scopes.length }) t
  /-- The server does not list the scope. -/
  | unknownScope {scope : Str} {scopes : List Str} {t : State} (hroot : isRootPath path = false)
      (hdepth : pathDepth path = .ok 2) (hscope : extractScope path = .ok scope)
      (hscopes : rucioListScopes io (extractServerName path) caller s = .ok (scopes, t))
      (hmem : scope ∉ scopes) :
      GetattrEnds io path caller st s (-eNOENT, st.stamped io) t
  | scope {scope : Str} {scopes : List Str} {dids : List RucioDid} {t u : State}
      (hroot : isRootPath path = false) (hdepth : pathDepth path = .ok 2)
      (hscope : extractScope path = .ok scope)
      (hscopes : rucioListScopes io (extractServerName path) caller s = .ok (scopes, t))
      (hmem : scope ∈ scopes)
      (hdids : rucioListDids io scope (extractServerName path) caller t = .ok (dids, u)) :
      GetattrEnds io path caller st s (0, { st.stamped io with
        mode := directoryMode, nlink := 2 + dids.length }) u
  | container {depth : ℤ} {scope name : Str} {dids : List RucioDid} {t u : State}
      (hroot : isRootPath path = false) (hdepth : pathDepth path = .ok depth) (hserver : depth ≠ 1)
      (hmain : depth ≠ 2) (hcontainer : rucioIsContainer io path caller s = .ok (true, t))
      (hscope : extractScope path = .ok scope) (hname : extractName path = .ok name)
      (hdids : rucioListContainerDids io scope name (extractServerName path) caller t =
        .ok (dids, u)) :
      GetattrEnds io path caller st s (0, { st.stamped io with
        mode := directoryMode, nlink := 2 + dids.length - countFiles io dids }) u
  /-- What is no container is a file, of the size that its record says. -/
  | file {depth : ℤ} {size : ℤ} {t u : State} (hroot : isRootPath path = false)
      (hdepth : pathDepth path = .ok depth) (hserver : depth ≠ 1) (hmain : depth ≠ 2)
      (hcontainer : rucioIsContainer io path caller s = .ok (false, t))
      (hsize : rucioGetSize io path caller t = .ok (size, u)) :
      GetattrEnds io path caller st s (0, { st.stamped io with
        mode := fileMode, nlink := 1, size }) u

/-- The ways through `rucio_getattr`. -/
inductive GetattrRuns (io : Io) (path : Str) (caller : Caller) (st : Stat) (m : Mount) :
    ℤ × Stat → Mount → Prop
  /-- A name nobody is told about. -/
  | skipped (hname : isHidden path = .ok true ∨ isMacSpecific path = .ok true) :
      GetattrRuns io path caller st m (0, st) m
  /-- Somebody without a token. -/
  | refused {t : State} (hgate : authGate io path caller m.rest = .ok (false, t)) :
      GetattrRuns io path caller st m (-eACCES, st) { m with rest := t }
  | looked {result : ℤ × Stat} {s t : State} (hhidden : isHidden path = .ok false)
      (hmac : isMacSpecific path = .ok false)
      (hgate : authGate io path caller m.rest = .ok (true, s))
      (hends : GetattrEnds io path caller st s result t) :
      GetattrRuns io path caller st m result { m with rest := t }

/-! ### Directories -/

/-- The ways through `rucio_readdir` behind the gate. -/
inductive ReaddirEnds (io : Io) (path : Str) (caller : Caller) (s : State) :
    ℤ × List Str → State → Prop
  | skipped (hhidden : isHidden path = .ok true) : ReaddirEnds io path caller s (0, []) s
  | root (hhidden : isHidden path = .ok false) (hroot : isRootPath path = true) :
      ReaddirEnds io path caller s (0, finalizeFiller (rucioListServers s)) s
  | server {scopes : List Str} {t : State} (hhidden : isHidden path = .ok false)
      (hroot : isRootPath path = false) (hdepth : pathDepth path = .ok 1)
      (hscopes : rucioListScopes io (extractServerName path) caller s = .ok (scopes, t)) :
      ReaddirEnds io path caller s (0, finalizeFiller scopes) t
  | scope {scope : Str} {dids : List RucioDid} {t : State} (hhidden : isHidden path = .ok false)
      (hroot : isRootPath path = false) (hdepth : pathDepth path = .ok 2)
      (hscope : extractScope path = .ok scope)
      (hdids : rucioListDids io scope (extractServerName path) caller s = .ok (dids, t)) :
      ReaddirEnds io path caller s (0, finalizeFiller (dids.map RucioDid.name)) t
  | container {depth : ℤ} {scope name : Str} {dids : List RucioDid} {t u : State}
      (hhidden : isHidden path = .ok false) (hroot : isRootPath path = false)
      (hdepth : pathDepth path = .ok depth) (hserver : depth ≠ 1) (hmain : depth ≠ 2)
      (hcontainer : rucioIsContainer io path caller s = .ok (true, t))
      (hscope : extractScope path = .ok scope) (hname : extractName path = .ok name)
      (hdids : rucioListContainerDids io scope name (extractServerName path) caller t =
        .ok (dids, u)) :
      ReaddirEnds io path caller s (0, finalizeFiller (dids.map RucioDid.name)) u
  | file {depth : ℤ} {t : State} (hhidden : isHidden path = .ok false)
      (hroot : isRootPath path = false) (hdepth : pathDepth path = .ok depth) (hserver : depth ≠ 1)
      (hmain : depth ≠ 2) (hcontainer : rucioIsContainer io path caller s = .ok (false, t)) :
      ReaddirEnds io path caller s (0, []) t

/-- The ways through `rucio_readdir`. -/
inductive ReaddirRuns (io : Io) (path : Str) (caller : Caller) (m : Mount) :
    ℤ × List Str → Mount → Prop
  | refused {t : State} (hgate : authGate io path caller m.rest = .ok (false, t)) :
      ReaddirRuns io path caller m (-eACCES, []) { m with rest := t }
  | looked {listed : ℤ × List Str} {s t : State}
      (hgate : authGate io path caller m.rest = .ok (true, s))
      (hends : ReaddirEnds io path caller s listed t) :
      ReaddirRuns io path caller m listed { m with rest := t }

/-! ### Reads -/

/-- The ways through the checks in front of a read. -/
inductive ChecksEnd (io : Io) (path : Str) (caller : Caller) (s : State) : Checked → State → Prop
  | refused {t : State} (hgate : authGate io path caller s = .ok (false, t)) :
      ChecksEnd io path caller s (.answered (-eACCES)) t
  /-- The path is that of a server or a scope. -/
  | directory {t : State} (hgate : authGate io path caller s = .ok (true, t)) :
      ChecksEnd io path caller s (.answered (-1)) t
  | container {t u : State} (hgate : authGate io path caller s = .ok (true, t))
      (hcontainer : rucioIsContainer io path caller t = .ok (true, u)) :
      ChecksEnd io path caller s (.answered (-1)) u
  | file {wanted : Wanted} {t u : State} (hgate : authGate io path caller s = .ok (true, t))
      (hcontainer : rucioIsContainer io path caller t = .ok (false, u))
      (hwanted : wantedOf path = .ok wanted) : ChecksEnd io path caller s (.file wanted) u

/-! ### Every way has been named -/

section Lookup

variable {io : Io} {path : Str} {caller : Caller} {st : Stat} {s t : State} {result : ℤ × Stat}
  {listed : ℤ × List Str}

/-- A path is that of a server if its depth is 1, -/
theorem isServerMountpoint_eq_ok {b : Bool} (h : isServerMountpoint path = .ok b) :
    ∃ depth, pathDepth path = .ok depth ∧ b = (depth == 1) := by
  obtain ⟨depth, hdepth, hb⟩ := bind_eq_ok.1 h
  exact ⟨depth, hdepth, (Except.ok.inj hb).symm⟩

/-- and that of a scope if its depth is 2. -/
theorem isMainScope_of_depth {depth : ℤ} (h : pathDepth path = .ok depth) :
    isMainScope path = .ok (depth == 2) := by
  rw [isMainScope, h, ok_bind, pure_eq_ok]

/-- A scope is there if the server lists it. -/
theorem scopeExists_eq_ok {server scope : Str} {found : Bool}
    (h : scopeExists io server scope caller s = .ok (found, t)) :
    ∃ scopes, rucioListScopes io server caller s = .ok (scopes, t) ∧
      found = scopes.contains scope := by
  obtain ⟨⟨scopes, t'⟩, hscopes, hret⟩ := bind_eq_ok.1 h
  obtain ⟨rfl, rfl⟩ := Prod.mk.inj (Except.ok.inj hret)
  exact ⟨scopes, hscopes, rfl⟩

/-- Behind the gate, every call of `rucio_getattr` goes one of its ways. -/
theorem getattrEnds_of_eq_ok (h : getattrBody io path caller st s = .ok (result, t)) :
    GetattrEnds io path caller st s result t := by
  simp only [getattrBody] at h
  -- the branches of the source, from the outside in: root, server, scope, and what is below
  rcases hroot : isRootPath path
  · rw [hroot, if_neg Bool.false_ne_true] at h
    obtain ⟨mountpoint, hmountpoint, h⟩ := bind_eq_ok.1 h
    obtain ⟨depth, hdepth, rfl⟩ := isServerMountpoint_eq_ok hmountpoint
    split_ifs at h with hone hserver
    · obtain ⟨rfl, rfl⟩ := Prod.mk.inj (Except.ok.inj h)
      obtain rfl : depth = 1 := eq_of_beq hone
      exact .unknownServer hroot hdepth (by simpa using hserver)
    · obtain ⟨⟨scopes, t'⟩, hscopes, hret⟩ := bind_eq_ok.1 h
      obtain ⟨rfl, rfl⟩ := Prod.mk.inj (Except.ok.inj hret)
      obtain rfl : depth = 1 := eq_of_beq hone
      exact .server hroot hdepth (by simpa using hserver) hscopes
    · have hne : depth ≠ 1 := by simpa using hone
      rw [isMainScope_of_depth hdepth, ok_bind] at h
      split_ifs at h with htwo
      · obtain ⟨scope, hscope, h⟩ := bind_eq_ok.1 h
        obtain ⟨⟨found, t₁⟩, hfound, h⟩ := bind_eq_ok.1 h
        obtain ⟨scopes, hscopes, rfl⟩ := scopeExists_eq_ok hfound
        obtain rfl : depth = 2 := eq_of_beq htwo
        simp only at h
        split_ifs at h with hmem
        · obtain ⟨rfl, rfl⟩ := Prod.mk.inj (Except.ok.inj h)
          exact .unknownScope hroot hdepth hscope hscopes (by simpa using hmem)
        · obtain ⟨⟨dids, t₂⟩, hdids, hret⟩ := bind_eq_ok.1 h
          obtain ⟨rfl, rfl⟩ := Prod.mk.inj (Except.ok.inj hret)
          exact .scope hroot hdepth hscope hscopes (by simpa using hmem) hdids
      · have hne' : depth ≠ 2 := by simpa using htwo
        -- below a scope the client decides between a directory and a file
        obtain ⟨⟨isContainer, t₁⟩, hcontainer, h⟩ := bind_eq_ok.1 h
        simp only at h
        split_ifs at h with hkind
        · obtain ⟨scope, hscope, h⟩ := bind_eq_ok.1 h
          obtain ⟨name, hname, h⟩ := bind_eq_ok.1 h
          obtain ⟨⟨dids, t₂⟩, hdids, hret⟩ := bind_eq_ok.1 h
          obtain ⟨rfl, rfl⟩ := Prod.mk.inj (Except.ok.inj hret)
          obtain rfl := hkind
          exact .container hroot hdepth hne hne' hcontainer hscope hname hdids
        · obtain ⟨⟨size, t₂⟩, hsize, hret⟩ := bind_eq_ok.1 h
          obtain ⟨rfl, rfl⟩ := Prod.mk.inj (Except.ok.inj hret)
          obtain rfl : isContainer = false := by simpa using hkind
          exact .file hroot hdepth hne hne' hcontainer hsize
  · rw [hroot, if_pos rfl] at h
    obtain ⟨rfl, rfl⟩ := Prod.mk.inj (Except.ok.inj h)
    exact .root hroot

/-- **Every call of `rucio_getattr` goes one of its ways.** -/
theorem getattrRuns_of_eq_ok {m m' : Mount}
    (h : rucioGetattr io path caller st m = .ok (result, m')) :
    GetattrRuns io path caller st m result m' := by
  obtain ⟨hidden, hhidden, h⟩ := bind_eq_ok.1 h
  -- names that are skipped do not get as far as the gate
  split_ifs at h with hskip
  · obtain ⟨rfl, rfl⟩ := Prod.mk.inj (Except.ok.inj h)
    exact .skipped (Or.inl (hskip ▸ hhidden))
  obtain ⟨mac, hmac, h⟩ := bind_eq_ok.1 h
  split_ifs at h with hskip'
  · obtain ⟨rfl, rfl⟩ := Prod.mk.inj (Except.ok.inj h)
    exact .skipped (Or.inr (hskip' ▸ hmac))
  obtain rfl : hidden = false := by simpa using hskip
  obtain rfl : mac = false := by simpa using hskip'
  obtain ⟨⟨authenticated, m₁⟩, hauth, h⟩ := bind_eq_ok.1 h
  obtain ⟨s₁, hgate, rfl⟩ := onRest_eq_ok hauth
  rcases authenticated
  · obtain ⟨rfl, rfl⟩ := Prod.mk.inj (Except.ok.inj h)
    exact .refused hgate
  · obtain ⟨t, hbody, rfl⟩ := onRest_eq_ok h
    exact .looked hhidden hmac hgate (getattrEnds_of_eq_ok hbody)

/-- Behind the gate, every call of `rucio_readdir` goes one of its ways. -/
theorem readdirEnds_of_eq_ok (h : readdirBody io path caller s = .ok (listed, t)) :
    ReaddirEnds io path caller s listed t := by
  obtain ⟨hidden, hhidden, h⟩ := bind_eq_ok.1 h
  -- here the name is looked at behind the gate
  split_ifs at h with hskip hroot
  · obtain ⟨rfl, rfl⟩ := Prod.mk.inj (Except.ok.inj h)
    exact .skipped (hskip ▸ hhidden)
  · obtain ⟨rfl, rfl⟩ := Prod.mk.inj (Except.ok.inj h)
    obtain rfl : hidden = false := by simpa using hskip
    exact .root hhidden hroot
  obtain rfl : hidden = false := by simpa using hskip
  obtain hroot : isRootPath path = false := by simpa using hroot
  obtain ⟨mountpoint, hmountpoint, h⟩ := bind_eq_ok.1 h
  obtain ⟨depth, hdepth, rfl⟩ := isServerMountpoint_eq_ok hmountpoint
  split_ifs at h with hone
  · obtain ⟨⟨scopes, t'⟩, hscopes, hret⟩ := bind_eq_ok.1 h
    obtain ⟨rfl, rfl⟩ := Prod.mk.inj (Except.ok.inj hret)
    obtain rfl : depth = 1 := eq_of_beq hone
    exact .server hhidden hroot hdepth hscopes
  have hne : depth ≠ 1 := by simpa using hone
  rw [isMainScope_of_depth hdepth, ok_bind] at h
  split_ifs at h with htwo
  · obtain ⟨scope, hscope, h⟩ := bind_eq_ok.1 h
    obtain ⟨⟨dids, t'⟩, hdids, hret⟩ := bind_eq_ok.1 h
    obtain ⟨rfl, rfl⟩ := Prod.mk.inj (Except.ok.inj hret)
    obtain rfl : depth = 2 := eq_of_beq htwo
    exact .scope hhidden hroot hdepth hscope hdids
  have hne' : depth ≠ 2 := by simpa using htwo
  -- a file has nothing in it, and no error is reported
  obtain ⟨⟨isContainer, t₁⟩, hcontainer, h⟩ := bind_eq_ok.1 h
  rcases isContainer
  · obtain ⟨rfl, rfl⟩ := Prod.mk.inj (Except.ok.inj h)
    exact .file hhidden hroot hdepth hne hne' hcontainer
  · obtain ⟨scope, hscope, h⟩ := bind_eq_ok.1 h
    obtain ⟨name, hname, h⟩ := bind_eq_ok.1 h
    obtain ⟨⟨dids, t₂⟩, hdids, hret⟩ := bind_eq_ok.1 h
    obtain ⟨rfl, rfl⟩ := Prod.mk.inj (Except.ok.inj hret)
    exact .container hhidden hroot hdepth hne hne' hcontainer hscope hname hdids

/-- **Every call of `rucio_readdir` goes one of its ways.** -/
theorem readdirRuns_of_eq_ok {m m' : Mount}
    (h : rucioReaddir io path caller m = .ok (listed, m')) :
    ReaddirRuns io path caller m listed m' := by
  obtain ⟨⟨authenticated, m₁⟩, hauth, h⟩ := bind_eq_ok.1 h
  obtain ⟨s₁, hgate, rfl⟩ := onRest_eq_ok hauth
  rcases authenticated
  · obtain ⟨rfl, rfl⟩ := Prod.mk.inj (Except.ok.inj h)
    exact .refused hgate
  · obtain ⟨t, hbody, rfl⟩ := onRest_eq_ok h
    exact .looked hgate (readdirEnds_of_eq_ok hbody)

/-- **The checks in front of a read go one of their ways.** -/
theorem checksEnd_of_eq_ok {checked : Checked}
    (h : readChecks io path caller s = .ok (checked, t)) :
    ChecksEnd io path caller s checked t := by
  obtain ⟨⟨authenticated, s₁⟩, hgate, h⟩ := bind_eq_ok.1 h
  rcases authenticated
  · obtain ⟨rfl, rfl⟩ := Prod.mk.inj (Except.ok.inj h)
    exact .refused hgate
  obtain ⟨⟨isFile, s₂⟩, hfile, h⟩ := bind_eq_ok.1 h
  -- what is as deep as a server or a scope is no file, and nobody is asked
  obtain ⟨mountpoint, -, hfile⟩ := bind_eq_ok.1 hfile
  split_ifs at hfile with hone
  · obtain ⟨rfl, rfl⟩ := Prod.mk.inj (Except.ok.inj hfile)
    obtain ⟨rfl, rfl⟩ := Prod.mk.inj (Except.ok.inj h)
    exact .directory hgate
  obtain ⟨mainScope, -, hfile⟩ := bind_eq_ok.1 hfile
  split_ifs at hfile with htwo
  · obtain ⟨rfl, rfl⟩ := Prod.mk.inj (Except.ok.inj hfile)
    obtain ⟨rfl, rfl⟩ := Prod.mk.inj (Except.ok.inj h)
    exact .directory hgate
  obtain ⟨⟨isContainer, s₃⟩, hcontainer, hret⟩ := bind_eq_ok.1 hfile
  obtain ⟨rfl, rfl⟩ := Prod.mk.inj (Except.ok.inj hret)
  rcases isContainer
  · obtain ⟨wanted, hwanted, h⟩ := bind_eq_ok.1 h
    obtain ⟨rfl, rfl⟩ := Prod.mk.inj (Except.ok.inj h)
    exact .file hgate hcontainer hwanted
  · obtain ⟨rfl, rfl⟩ := Prod.mk.inj (Except.ok.inj h)
    exact .container hgate hcontainer

end Lookup

end FusePosix
