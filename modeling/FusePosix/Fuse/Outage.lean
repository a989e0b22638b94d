import FusePosix.Fuse.Gate
import FusePosix.Fuse.Lookup

/-!
# What an outage looks like

The functions of the REST client fold an error of libcurl into an ordinary value: a listing is
empty, a DID is no container, a size is 0. Of the callbacks only the gate in front of them tells an
error from an answer. So an outage is reported as `EACCES` if it hits the request for a token, and
not at all behind the gate (`outage_reported_iff`): there a server looks empty, a scope looks
absent, and everything below looks like an empty file (`getattr_unreachable`,
`readdir_unreachable`).
-/

namespace FusePosix

/-! ### The answers of a call -/

/-- The answers to the requests of a log, latest first, not counting its first `older` events. -/
def answersSince (io : Io) (older : ℕ) : List Event → List CurlRet
  | [] => []
  | .sent request :: log =>
    if log.length < older then [] else io.net log request :: answersSince io older log
  | .stored _ _ _ :: log => if log.length < older then [] else answersSince io older log
  | .used _ _ _ :: log => if log.length < older then [] else answersSince io older log

/-- The answers to all requests that were sent between two states. -/
def callAnswers (io : Io) (s t : State) : List CurlRet := answersSince io s.log.length t.log

theorem callAnswers_self (io : Io) (s : State) : callAnswers io s s = [] := by
  rw [callAnswers]
  rcases s.log with - | ⟨event, log⟩
  · rfl
  · rcases event <;> exact if_pos (Nat.lt_succ_self _)

/-- A request between two states has ended with an error of libcurl. -/
def FailedBetween (io : Io) (s t : State) : Prop := ∃ ret ∈ callAnswers io s t, ret.ok = false

/-! ### Looking at a path -/

/-- The two callbacks that look at a path. -/
inductive Browse where
  | getattr (st : Stat)
  | readdir
  deriving DecidableEq, Repr

/-- The return value of a callback, and the mount behind it. -/
def Browse.run (io : Io) (path : Str) (caller : Caller) (m : Mount) :
    Browse → Except Fault (ℤ × Mount)
  | .getattr st => do
    let (result, m) ← rucioGetattr io path caller st m
    return (result.1, m)
  | .readdir => do
    let (result, m) ← rucioReaddir io path caller m
    return (result.1, m)

section Outage

variable {io : Io} {path : Str} {caller : Caller} {st : Stat} {s t : State} {m m' : Mount}
  {result : ℤ}

/-- Behind the gate `rucio_getattr` knows of one error. -/
theorem GetattrEnds.result_eq {found : ℤ × Stat} (h : GetattrEnds io path caller st s found t) :
    found.1 = 0 ∨ found.1 = -eNOENT := by
  rcases h with - | - | - | - | - | - | -
  case unknownServer | unknownScope => exact Or.inr rfl
  all_goals exact Or.inl rfl

/-- Behind the gate `rucio_readdir` knows of no error. -/
theorem ReaddirEnds.result_eq {listed : ℤ × List Str} (h : ReaddirEnds io path caller s listed t) :
    listed.1 = 0 := by
  rcases h with - | - | - | - | - | - <;> rfl

/-- How a call ends, as far as its return value is concerned. -/
theorem Browse.ends {call : Browse} (h : call.run io path caller m = .ok (result, m')) :
    m' = m ∨
      (result = -eACCES ∧ ∃ t, authGate io path caller m.rest = .ok (false, t)) ∨
      ((result = 0 ∨ result = -eNOENT) ∧ ∃ t, authGate io path caller m.rest = .ok (true, t)) := by
  rcases call with st | -
  · obtain ⟨⟨found, m₁⟩, hrun, hret⟩ := bind_eq_ok.1 h
    obtain ⟨rfl, rfl⟩ := Prod.mk.inj (Except.ok.inj hret)
    rcases getattrRuns_of_eq_ok hrun with hname | hgate | ⟨-, -, hgate, hends⟩
    · exact Or.inl rfl
    · exact Or.inr (Or.inl ⟨rfl, _, hgate⟩)
    · exact Or.inr (Or.inr ⟨hends.result_eq, _, hgate⟩)
  · obtain ⟨⟨listed, m₁⟩, hrun, hret⟩ := bind_eq_ok.1 h
    obtain ⟨rfl, rfl⟩ := Prod.mk.inj (Except.ok.inj hret)
    rcases readdirRuns_of_eq_ok hrun with hgate | ⟨hgate, hends⟩
    · exact Or.inr (Or.inl ⟨rfl, _, hgate⟩)
    · exact Or.inr (Or.inr ⟨Or.inl hends.result_eq, _, hgate⟩)

/-! ### A server that cannot be reached -/

/-- Nothing that a call could be answered from without a request. -/
structure Cold (now : ℤ) (s : State) : Prop where
  stale : ∀ query entry, s.expiring query = some entry → entry.1 < now
  isContainer : ∀ key, s.isContainerCache.find key = none
  fileSize : ∀ key, s.fileSizeCache.find key = none

theorem Cold.quiet {now : ℤ} (h : Cold now s) (hquiet : Quiet s t) : Cold now t where
  stale query entry hentry := h.stale query entry (hquiet.expiring ▸ hentry)
  isContainer key := by rw [hquiet.isContainer, h.isContainer]
  fileSize key := by rw [hquiet.fileSize, h.fileSize]

/-- No request brings an answer. -/
def Unreachable (io : Io) : Prop := ∀ log request, (io.net log request).ok = false

theorem Exchanged.eq_none {server resource : Str} {payload : Option (List Str)}
    (h : Exchanged io server resource caller s payload t) (hio : Unreachable io) :
    payload = none := by
  rcases h with - | - | ⟨hasked, hok⟩
  · rfl
  · rfl
  · exact absurd hok (by simp [hio _ _])

/-- A server that cannot be reached has no scopes. -/
theorem scopes_unreachable {server : Str} {scopes : List Str} (hio : Unreachable io)
    (hs : Cold io.now s) (h : rucioListScopes io server caller s = .ok (scopes, t)) :
    scopes = [] ∧ Quiet s t := by
  rcases rucioListScopes_eq_ok h with ⟨hfetch, -⟩ | ⟨expiry, hfound, hfresh, -⟩
  · obtain ⟨payload, s₁, hexchanged, ⟨-, hnil, rfl⟩ | ⟨chunks, rfl, -⟩⟩ := fetchScopes_eq_ok hfetch
    · exact ⟨hnil, hexchanged.quiet⟩
    · exact absurd (hexchanged.eq_none hio) (by simp)
  · have hentry : s.expiring (.scopes server) = some (expiry, .scopes scopes) := by
      rw [State.expiring, hfound, Option.map_some]
    exact absurd (hs.stale _ _ hentry) (Int.not_lt.2 hfresh)

/-- A scope of a server that cannot be reached has no DIDs. -/
theorem dids_unreachable {server scope : Str} {dids : List RucioDid} (hio : Unreachable io)
    (hs : Cold io.now s) (h : rucioListDids io scope server caller s = .ok (dids, t)) :
    dids = [] := by
  rcases rucioListDids_eq_ok h with ⟨hfetch, -⟩ | ⟨expiry, hfound, hfresh, -⟩
  · obtain ⟨payload, s₁, hexchanged, ⟨-, hnil, -⟩ | ⟨chunks, remainder, rfl, -⟩⟩ :=
      fetchDids_eq_ok hfetch
    · exact hnil
    · exact absurd (hexchanged.eq_none hio) (by simp)
  · have hentry : s.expiring (.dids server scope) = some (expiry, .dids dids) := by
      rw [State.expiring, hfound, Option.map_some]
    exact absurd (hs.stale _ _ hentry) (Int.not_lt.2 hfresh)

/-- A server that cannot be reached has no containers. -/
theorem isContainer_unreachable {value : Bool} (hio : Unreachable io) (hs : Cold io.now s)
    (h : rucioIsContainer io path caller s = .ok (value, t)) : value = false ∧ Quiet s t := by
  obtain ⟨scope, name, -, ⟨found, hfound, -⟩ | ⟨-, payload, s₁, hexchanged, hend⟩⟩ :=
    rucioIsContainer_eq_ok h
  · exact absurd (hfound.symm.trans (hs.isContainer _)) (by simp)
  · rcases hend with ⟨-, rfl, rfl⟩ | ⟨front, rest, rfl, -⟩
    · exact ⟨rfl, hexchanged.quiet⟩
    · exact absurd (hexchanged.eq_none hio) (by simp)

/-- And all files are empty. -/
theorem size_unreachable {size : ℤ} (hio : Unreachable io) (hs : Cold io.now s)
    (h : rucioGetSize io path caller s = .ok (size, t)) : size = 0 := by
  obtain ⟨scope, name, -, ⟨found, hfound, -⟩ | ⟨-, payload, s₁, hexchanged, hend⟩⟩ :=
    rucioGetSize_eq_ok h
  · exact absurd (hfound.symm.trans (hs.fileSize _)) (by simp)
  · rcases hend with ⟨-, hsize, -⟩ | ⟨chunks, rfl, -⟩ | ⟨chunks, rfl, -⟩
    · exact hsize
    · exact absurd (hexchanged.eq_none hio) (by simp)
    · exact absurd (hexchanged.eq_none hio) (by simp)

/-- **Attributes in an outage.** Behind the gate a loaded server is an empty directory, no scope
exists, and every deeper path is an empty file. -/
theorem getattr_unreachable {found : ℤ × Stat} (hio : Unreachable io) (hs : Cold io.now s)
    (hroot : isRootPath path = false) (h : GetattrEnds io path caller st s found t) :
    (pathDepth path = .ok 1 ∧
      if serverExists s.servers (extractServerName path) then
        found = (0, { st.stamped io with mode := directoryMode, nlink := 2 })
      else found = (-eNOENT, st.stamped io)) ∨
    (pathDepth path = .ok 2 ∧ found = (-eNOENT, st.stamped io)) ∨
    (∃ depth, pathDepth path = .ok depth ∧ depth ≠ 1 ∧ depth ≠ 2 ∧
      found = (0, { st.stamped io with mode := fileMode, nlink := 1, size := 0 })) := by
  induction h with
  | root hroot' => exact absurd (hroot.symm.trans hroot') Bool.false_ne_true
  | unknownServer _ hdepth hserver => exact Or.inl ⟨hdepth, by rw [hserver]; rfl⟩
  | server _ hdepth hserver hscopes =>
    obtain ⟨rfl, -⟩ := scopes_unreachable hio hs hscopes
    exact Or.inl ⟨hdepth, by rw [hserver]; rfl⟩
  | unknownScope _ hdepth => exact Or.inr (Or.inl ⟨hdepth, rfl⟩)
  | scope _ hdepth _ hscopes hmem =>
    obtain ⟨rfl, -⟩ := scopes_unreachable hio hs hscopes
    exact absurd hmem List.not_mem_nil
  | container _ _ _ _ hcontainer =>
    exact absurd (isContainer_unreachable hio hs hcontainer).1 (by simp)
  | file _ hdepth hone htwo hcontainer hsize =>
    obtain ⟨-, hquiet⟩ := isContainer_unreachable hio hs hcontainer
    obtain rfl := size_unreachable hio (hs.quiet hquiet) hsize
    exact Or.inr (Or.inr ⟨_, hdepth, hone, htwo, rfl⟩)

/-- **Directories in an outage.** Behind the gate every directory is listed, and has no entries but
its own. -/
theorem readdir_unreachable {listed : ℤ × List Str} (hio : Unreachable io) (hs : Cold io.now s)
    (hroot : isRootPath path = false) (h : ReaddirEnds io path caller s listed t) :
    listed = (0, []) ∨ listed = (0, finalizeFiller []) := by
  induction h with
  | skipped | file => exact Or.inl rfl
  | root _ hroot' => exact absurd (hroot.symm.trans hroot') Bool.false_ne_true
  | server _ _ _ hscopes =>
    obtain ⟨rfl, -⟩ := scopes_unreachable hio hs hscopes
    exact Or.inr rfl
  | scope _ _ _ _ hdids =>
    obtain rfl := dids_unreachable hio hs hdids
    exact Or.inr rfl
  | container _ _ _ _ _ hcontainer =>
    exact absurd (isContainer_unreachable hio hs hcontainer).1 (by simp)

/-! ### Who is let in -/

/-- The user is let through the gate: the path is the root, or its server is loaded and the user has
a valid token of it, or a request for a token is answered without an objection. -/
def Admitted (io : Io) (path : Str) (caller : Caller) (s : State) : Prop :=
  isRootPath path = true ∨ ∃ srv, s.servers.find (extractServerName path) = some srv ∧
    ((srv.token caller.uid).validAt io.now = true ∨
      (srv.rucioConnParams.rucioAuthMode = .userpass ∨ srv.rucioConnParams.rucioAuthMode = .x509) ∧
        (authResponse io srv s).ok = true ∧ ¬Refused (authResponse io srv s).payload)

theorem receiveToken_fst_eq_tokenOk_iff {server : Str} {srv : RucioServer} {uid : ℕ} {ret : CurlRet}
    (h : s.servers.find server = some srv) :
    (receiveToken io server uid ret s).1 = .tokenOk ↔ ret.ok = true ∧ ¬Refused ret.payload := by
  by_cases haccepted : ret.ok = true ∧ ¬ Refused ret.payload
  · rw [receiveToken_accepted h haccepted]
    exact iff_of_true rfl haccepted
  · obtain ⟨result, hresult, heq⟩ :=
      @exists_receiveToken_rejected io server uid s ret haccepted
    rw [heq]
    exact iff_of_false hresult haccepted

/-- The answer to a request for a token. -/
theorem requestToken_eq_ok {server : Str} {srv : RucioServer}
    (h : s.servers.find server = some srv) :
    ∃ answer t, requestToken io srv.rucioConnParams.rucioAuthMode server caller s =
        .ok (answer, t) ∧
      (answer = .tokenOk ↔
        (srv.rucioConnParams.rucioAuthMode = .userpass ∨
          srv.rucioConnParams.rucioAuthMode = .x509) ∧
        (authResponse io srv s).ok = true ∧ ¬Refused (authResponse io srv s).payload) := by
  have hparams := getServerParams_of_find h
  rcases hmode : srv.rucioConnParams.rucioAuthMode with - | - | - | -
  · refine ⟨_, _, by rw [requestToken, rucioGetAuthTokenUserpass, hparams]; rfl, ?_⟩
    have hloaded : (safeGET io (userpassRequest srv.rucioConnParams) s).2.servers.find server =
        some srv := h
    rw [authResponse, hmode]
    exact (receiveToken_fst_eq_tokenOk_iff hloaded).trans (and_iff_right (Or.inl rfl)).symm
  · have hbundle := @getServerSSLBundle_of_find io.readFile _ _ _ h
    refine ⟨_, _, by
      rw [requestToken, rucioGetAuthTokenX509, hparams]
      simp only [hbundle]
      rfl, ?_⟩
    have hloaded : (curlGET io (x509Request srv.rucioConnParams (srv.sslBundle io.readFile))
        s).2.servers.find server = some srv := h
    rw [authResponse, hmode]
    exact (receiveToken_fst_eq_tokenOk_iff hloaded).trans (and_iff_right (Or.inr rfl)).symm
  · exact ⟨_, _, rucioGetAuthTokenOidc_async h, by simp⟩
  · exact ⟨_, _, rfl, by simp⟩

/-- **Whom the gate lets in.** It always answers. -/
theorem authGate_eq_ok (io : Io) (path : Str) (caller : Caller) (s : State) :
    ∃ admitted t, authGate io path caller s = .ok (admitted, t) ∧
      (admitted = true ↔ Admitted io path caller s) := by
  rcases hroot : isRootPath path with - | -
  · rcases hfind : s.servers.find (extractServerName path) with - | srv
    · have hparams := getServerParams_eq_none hfind
      have hvalid : rucioIsTokenValid io (extractServerName path) caller.uid s = (false, s) := by
        rw [rucioIsTokenValid, getServerToken, hfind]
      refine ⟨_, _, by rw [authGate, hroot, authenticateUser, hvalid]; simp only [hparams]; rfl, ?_⟩
      simp [Admitted, hroot, hfind]
    · have hlooked := @find_lookedUp _ _ caller.uid _ hfind
      have hauth := @authenticateUser_of_find io _ caller _ _ hfind
      have hgate : ∀ answer t, authenticateUser io path caller s = .ok (answer, t) →
          authGate io path caller s = .ok (answer == .tokenOk, t) := by
        intro answer t hanswer
        rw [authGate, hroot, hanswer]
        rfl
      have hadmitted : Admitted io path caller s ↔ (srv.token caller.uid).validAt io.now = true ∨
          (srv.rucioConnParams.rucioAuthMode = .userpass ∨
            srv.rucioConnParams.rucioAuthMode = .x509) ∧
          (authResponse io srv s).ok = true ∧ ¬Refused (authResponse io srv s).payload := by
        simp [Admitted, hroot, hfind]
      rw [hadmitted]
      rcases hvalid : (srv.token caller.uid).validAt io.now with - | -
      · obtain ⟨answer, t, hrequest, hiff⟩ := @requestToken_eq_ok io caller _ _ _ hlooked
        refine ⟨_, t, hgate answer t (by rw [hauth, hvalid]; exact hrequest), ?_⟩
        rw [beq_iff_eq]
        exact hiff.trans (or_iff_right Bool.false_ne_true).symm
      · exact ⟨_, _, hgate _ _ (by rw [hauth, hvalid]; rfl), iff_of_true rfl (Or.inl rfl)⟩
  · exact ⟨true, s, by rw [authGate, hroot]; rfl, iff_of_true rfl (Or.inl hroot)⟩

theorem admitted_of_authGate {admitted : Bool} (h : authGate io path caller s = .ok (admitted, t)) :
    admitted = true ↔ Admitted io path caller s := by
  obtain ⟨answer, u, hgate, hiff⟩ := authGate_eq_ok io path caller s
  obtain ⟨rfl, -⟩ := Prod.mk.inj (Except.ok.inj (h.symm.trans hgate))
  exact hiff

/-! ### When an outage is reported -/

/-- **When a failed request is reported.** Take a call for any path that returns. A request of it
that ends with an error of libcurl makes it return an error other than `ENOENT` exactly if the user
is not let through the gate. So no failure behind the gate is ever reported. -/
theorem outage_reported_iff {call : Browse} (h : call.run io path caller m = .ok (result, m')) :
    (FailedBetween io m.rest m'.rest → result < 0 ∧ result ≠ -eNOENT) ↔
      (FailedBetween io m.rest m'.rest → ¬Admitted io path caller m.rest) := by
  rcases call.ends h with rfl | ⟨rfl, hrefused⟩ | ⟨hresult, t, hopen⟩
  · have hnone : ¬FailedBetween io m'.rest m'.rest := by
      rintro ⟨ret, hret, -⟩
      rw [callAnswers_self] at hret
      exact List.not_mem_nil hret
    exact iff_of_true (fun hfailed ↦ absurd hfailed hnone) fun hfailed ↦ absurd hfailed hnone
  · obtain ⟨t, hrefused⟩ := hrefused
    exact iff_of_true (fun _ ↦ by decide) fun _ hadmitted ↦
      Bool.false_ne_true ((admitted_of_authGate hrefused).2 hadmitted)
  · refine imp_congr_right fun _ ↦ iff_of_false ?_ fun hrefused ↦ ?_
    · rcases hresult with rfl | rfl <;> decide
    · exact hrefused ((admitted_of_authGate hopen).1 rfl)

end Outage

/-- A world in which no request brings an answer, two minutes and a second after the others. -/
def unreachableIo : Io := { sampleIo with now := 1000121, net := fun _ _ ↦ ⟨7, []⟩ }

/-- A world in which every request is answered with one scope. -/
def oneScopeIo : Io := { sampleIo with net := fun _ _ ↦ ⟨0, [['[', 'x', ']']]⟩ }

/-- A mount with a server of which two users have tokens. -/
def holdersMount : Mount := { rest := State.start twoHolders [['s']] }

/-- A user without a token looks at a scope while the server cannot be reached. -/
theorem outage_reported_iff_no_token :
    ∃ m', Browse.run unreachableIo ['/', 's', '/', 'x'] { sampleCaller with uid := 9 } holdersMount
        (.getattr {}) = .ok (-eACCES, m') ∧
      (FailedBetween unreachableIo holdersMount.rest m'.rest →
        -eACCES < 0 ∧ -eACCES ≠ -eNOENT) := by
  obtain ⟨m', hm'⟩ := exists_of_map_fst_eq_ok (by decide +kernel :
    (Browse.run unreachableIo ['/', 's', '/', 'x'] { sampleCaller with uid := 9 } holdersMount
      (.getattr {})).map Prod.fst = .ok (-eACCES))
  obtain ⟨t, ht⟩ := exists_of_map_fst_eq_ok (by decide +kernel :
    (authGate unreachableIo ['/', 's', '/', 'x'] { sampleCaller with uid := 9 }
      holdersMount.rest).map Prod.fst = .ok false)
  exact ⟨m', hm', (outage_reported_iff hm').2 fun _ hadmitted ↦
    Bool.false_ne_true ((admitted_of_authGate ht).2 hadmitted)⟩

/-- A user with a valid token looks at a scope twice. The first time the server answers, and the
scope is there; two minutes later it does not, and the same scope is reported to be absent. -/
theorem existing_scope_reported_absent :
    ∃ m m', Browse.run oneScopeIo ['/', 's', '/', 'x'] sampleCaller holdersMount (.getattr {}) =
        .ok (0, m) ∧
      Browse.run unreachableIo ['/', 's', '/', 'x'] sampleCaller m (.getattr {}) =
        .ok (-eNOENT, m') ∧
      (rucioIsTokenValid unreachableIo ['s'] sampleCaller.uid m.rest).1 = true ∧
      FailedBetween unreachableIo m.rest m'.rest := by
  have hrun : (do
      let up ← Browse.run oneScopeIo ['/', 's', '/', 'x'] sampleCaller holdersMount (.getattr {})
      let down ← Browse.run unreachableIo ['/', 's', '/', 'x'] sampleCaller up.2 (.getattr {})
      return (up.1, down.1, (rucioIsTokenValid unreachableIo ['s'] sampleCaller.uid up.2.rest).1,
        callAnswers unreachableIo up.2.rest down.2.rest)) =
      (.ok (0, -eNOENT, true, [⟨7, []⟩]) : Except Fault (ℤ × ℤ × Bool × List CurlRet)) := by
    decide +kernel
  obtain ⟨⟨result, m⟩, hup, hrun⟩ := bind_eq_ok.1 hrun
  obtain ⟨⟨result', m'⟩, hdown, hseen⟩ := bind_eq_ok.1 hrun
  simp only [pure_eq_ok, Except.ok.injEq, Prod.mk.injEq] at hseen
  obtain ⟨rfl, rfl, hvalid, hanswers⟩ := hseen
  exact ⟨m, m', hup, hdown, hvalid, ⟨7, []⟩, by simp [hanswers], rfl⟩

end FusePosix
