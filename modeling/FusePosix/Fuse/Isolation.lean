import FusePosix.Fuse.Outage
import FusePosix.Rest.Isolation

/-!
# Tokens stay with their users

A callback derives the name of the server from the path again and again: in the gate, for each
listing, and for the lookups of single DIDs. All of these agree, so that everything a callback does
concerns the server of the path and the user it is called for (`isolated_callback`). In particular
no user's callback touches another user's token, and the transfers it begins go to the server of the
path and carry no other token.

What the program does not check is where a transfer goes on. libcurl is told to follow redirects,
and it sends the headers along, so a server can have a token sent anywhere (`token_sent_away`). That
is the only way in which the requests of a callback leave the server of its path
(`token_isolation_iff`).
-/

namespace FusePosix

/-! ### Callbacks -/

/-- The three callbacks. -/
inductive Callback where
  | getattr (st : Stat)
  | readdir
  | read (size : ℕ) (offset : ℤ)

/-- The mount behind a callback. -/
def Callback.run (io : Io) (path : Str) (caller : Caller) (m : Mount) :
    Callback → Except Fault Mount
  | .getattr st => Prod.snd <$> rucioGetattr io path caller st m
  | .readdir => Prod.snd <$> rucioReaddir io path caller m
  | .read size offset => Prod.snd <$> rucioRead io path caller size offset m

section Isolation

variable {io : Io} {path : Str} {caller : Caller} {s t : State} {m m' : Mount}

theorem isolated_authGate {authenticated : Bool} (hmodes : RequestModes s.servers)
    (h : authGate io path caller s = .ok (authenticated, t)) :
    Isolated io (extractServerName path) caller.uid s t := by
  rw [authGate] at h
  split_ifs at h with hroot
  · obtain ⟨-, rfl⟩ := Prod.mk.inj (Except.ok.inj h)
    exact isolated_refl s
  · obtain ⟨⟨result, s₁⟩, hauth, hret⟩ := bind_eq_ok.1 h
    obtain ⟨-, rfl⟩ := Prod.mk.inj (Except.ok.inj hret)
    exact isolated_authenticateUser hmodes hauth

/-- What follows something isolated is isolated if it is so on its own. -/
theorem Isolated.andThen {server : Str} {uid : ℕ} {u : State} (hmodes : RequestModes s.servers)
    (h : Isolated io server uid s t)
    (h' : RequestModes t.servers → Isolated io server uid t u) : Isolated io server uid s u :=
  h.trans (h' (hmodes.of_sameSettings h.settings))

theorem GetattrEnds.isolated {st : Stat} {result : ℤ × Stat}
    (h : GetattrEnds io path caller st s result t) (hmodes : RequestModes s.servers) :
    Isolated io (extractServerName path) caller.uid s t := by
  induction h with
  | root | unknownServer => exact isolated_refl s
  | server _ _ _ hscopes => exact isolated_rucioListScopes hmodes hscopes
  | unknownScope _ _ _ hscopes => exact isolated_rucioListScopes hmodes hscopes
  | scope _ _ _ hscopes _ hdids =>
    exact (isolated_rucioListScopes hmodes hscopes).andThen hmodes fun hmodes' ↦
      isolated_rucioListDids hmodes' hdids
  | container _ _ _ _ hcontainer _ _ hdids =>
    exact (isolated_rucioIsContainer hmodes hcontainer).andThen hmodes fun hmodes' ↦
      isolated_rucioListContainerDids hmodes' hdids
  | file _ _ _ _ hcontainer hsize =>
    exact (isolated_rucioIsContainer hmodes hcontainer).andThen hmodes fun hmodes' ↦
      isolated_rucioGetSize hmodes' hsize

theorem ReaddirEnds.isolated {listed : ℤ × List Str} (h : ReaddirEnds io path caller s listed t)
    (hmodes : RequestModes s.servers) : Isolated io (extractServerName path) caller.uid s t := by
  induction h with
  | skipped | root => exact isolated_refl s
  | server _ _ _ hscopes => exact isolated_rucioListScopes hmodes hscopes
  | scope _ _ _ _ hdids => exact isolated_rucioListDids hmodes hdids
  | container _ _ _ _ _ hcontainer _ _ hdids =>
    exact (isolated_rucioIsContainer hmodes hcontainer).andThen hmodes fun hmodes' ↦
      isolated_rucioListContainerDids hmodes' hdids
  | file _ _ _ _ _ hcontainer => exact isolated_rucioIsContainer hmodes hcontainer

theorem ChecksEnd.isolated {checked : Checked} (h : ChecksEnd io path caller s checked t)
    (hmodes : RequestModes s.servers) : Isolated io (extractServerName path) caller.uid s t := by
  induction h with
  | refused hgate | directory hgate => exact isolated_authGate hmodes hgate
  | container hgate hcontainer | file hgate hcontainer =>
    exact (isolated_authGate hmodes hgate).andThen hmodes fun hmodes' ↦
      isolated_rucioIsContainer hmodes' hcontainer

/-- The path of a read is the path of its checks. -/
theorem ChecksEnd.path_eq {wanted : Wanted} (h : ChecksEnd io path caller s (.file wanted) t) :
    wanted.path = path := by
  rcases h with - | - | - | ⟨-, -, hwanted⟩
  obtain ⟨did, -, hwanted⟩ := bind_eq_ok.1 hwanted
  obtain ⟨scope, -, hwanted⟩ := bind_eq_ok.1 hwanted
  obtain ⟨name, -, hwanted⟩ := bind_eq_ok.1 hwanted
  rw [← Except.ok.inj hwanted]

/-- A read of an open file asks for its size, and for nothing else. -/
theorem isolated_readFile {wanted : Wanted} {size : ℕ} {offset : ℤ} {result : ℤ × Str}
    (hmodes : RequestModes m.rest.servers)
    (h : readFile io wanted caller size offset m = .ok (result, m')) :
    Isolated io (extractServerName wanted.path) caller.uid m.rest m'.rest := by
  obtain ⟨⟨fileSize, m₁⟩, hcall, h⟩ := bind_eq_ok.1 h
  obtain ⟨t, hsize, rfl⟩ := onRest_eq_ok hcall
  have hisolated : Isolated io (extractServerName wanted.path) caller.uid m.rest t :=
    isolated_rucioGetSize hmodes hsize
  simp only at h
  split_ifs at h with hoffset
  · obtain ⟨-, rfl⟩ := Prod.mk.inj (Except.ok.inj h)
    exact hisolated
  · obtain ⟨content, -, h⟩ := bind_eq_ok.1 h
    obtain ⟨-, rfl⟩ := Prod.mk.inj (Except.ok.inj h)
    exact hisolated

theorem isolated_rucioRead {size : ℕ} {offset : ℤ} {result : ℤ × Str}
    (hmodes : RequestModes m.rest.servers)
    (h : rucioRead io path caller size offset m = .ok (result, m')) :
    Isolated io (extractServerName path) caller.uid m.rest m'.rest := by
  obtain ⟨⟨checked, m₁⟩, hcall, h⟩ := bind_eq_ok.1 h
  obtain ⟨t, hchecks, rfl⟩ := onRest_eq_ok hcall
  have hends := checksEnd_of_eq_ok hchecks
  have hisolated := hends.isolated hmodes
  rcases checked with answer | wanted
  · obtain ⟨-, rfl⟩ := Prod.mk.inj (Except.ok.inj h)
    exact hisolated
  -- the file cache, the flags and the pipeline have nothing to do with tokens
  simp only at h
  split_ifs at h with hcached hdownloading
  · obtain ⟨-, rfl⟩ := Prod.mk.inj (Except.ok.inj h)
    exact hisolated
  · obtain ⟨info, -, h⟩ := bind_eq_ok.1 h
    obtain ⟨-, rfl⟩ := Prod.mk.inj (Except.ok.inj h)
    exact hisolated
  · rw [← hends.path_eq] at hisolated ⊢
    exact hisolated.andThen hmodes fun hmodes' ↦ isolated_readFile hmodes' h

/-- **A callback concerns the server of its path and the user it is called for.** -/
theorem isolated_callback {call : Callback} (hmodes : RequestModes m.rest.servers)
    (h : call.run io path caller m = .ok m') :
    Isolated io (extractServerName path) caller.uid m.rest m'.rest := by
  rcases call with st | - | ⟨size, offset⟩
  · obtain ⟨⟨result, m₁⟩, hrun, rfl⟩ := map_eq_ok h
    rcases getattrRuns_of_eq_ok hrun with - | hgate | ⟨-, -, hgate, hends⟩
    · exact isolated_refl _
    · exact isolated_authGate hmodes hgate
    · exact (isolated_authGate hmodes hgate).andThen hmodes hends.isolated
  · obtain ⟨⟨listed, m₁⟩, hrun, rfl⟩ := map_eq_ok h
    rcases readdirRuns_of_eq_ok hrun with hgate | ⟨hgate, hends⟩
    · exact isolated_authGate hmodes hgate
    · exact (isolated_authGate hmodes hgate).andThen hmodes hends.isolated
  · obtain ⟨⟨result, m₁⟩, hrun, rfl⟩ := map_eq_ok h
    exact isolated_rucioRead hmodes hrun

/-- What happens in a callback for a path and a user, between two states of the mount, touches and
makes known no token but that of the user at the server of the path. The last field is about all
requests that leave the machine, those that follow a redirect included. -/
structure TokensIsolated (io : Io) (path : Str) (caller : Caller) (m m' : Mount) : Prop where
  tokens : ∀ server uid, (server, uid) ≠ (extractServerName path, caller.uid) →
    m'.rest.storedToken server uid = m.rest.storedToken server uid
  names : ∀ server, serverExists m'.rest.servers server = serverExists m.rest.servers server
  params : ∀ server, getServerParams m'.rest.servers server = getServerParams m.rest.servers server
  requests : ∃ events, m'.rest.log = events ++ m.rest.log ∧
    (m'.rest.tokenOf (extractServerName path) caller.uid).connToken = tokenAfter io
      (m.rest.tokenOf (extractServerName path) caller.uid).connToken m.rest.log events ∧
    ∀ later request earlier, events = later ++ .sent request :: earlier →
      ∀ sent ∈ request.transfer io (earlier ++ m.rest.log),
        ∃ params, getServerParams m.rest.servers (extractServerName path) = some params ∧
          sent.Own params (tokenAfter io
            (m.rest.tokenOf (extractServerName path) caller.uid).connToken m.rest.log earlier)

/-- No answer to a request between two states sends libcurl to an address that is not below that of
a server. -/
def NoneSentAway (io : Io) (server : Str) (s t : State) : Prop :=
  ∀ later request earlier, t.log = later ++ .sent request :: (earlier ++ s.log) →
    ∀ url ∈ io.redirects (earlier ++ s.log) request,
      ∃ params, getServerParams s.servers server = some params ∧ params.Serves url

/-- Whoever follows no redirect is not sent away. -/
theorem noneSentAway_of_redirects_eq_nil {server : Str}
    (h : ∀ log request, io.redirects log request = []) : NoneSentAway io server s t := by
  intro later request earlier _ url hurl
  rw [h] at hurl
  exact absurd hurl List.not_mem_nil

/-- **Tokens stay with their users, unless a server sends them elsewhere.** Take any state of a
mount whose servers all take requests for tokens, and a call of any callback by any user for any
path, whatever is answered. Every other pair of a server and a user keeps its token, or the absence
of one; the servers are the same and have the same parameters; and the requests go to the server of
the path, which is loaded then, and carry no token but the one that is stored for the user when they
are sent. The requests do so exactly if no answer redirects libcurl to an address that is not below
that of the server, in particular if no answer redirects at all. -/
theorem token_isolation_iff {call : Callback} (hmodes : RequestModes m.rest.servers)
    (h : call.run io path caller m = .ok m') :
    (TokensIsolated io path caller m m' ↔
      NoneSentAway io (extractServerName path) m.rest m'.rest) ∧
    ((∀ log request, io.redirects log request = []) → TokensIsolated io path caller m m') := by
  have hisolated := isolated_callback hmodes h
  obtain ⟨events, hlog, htoken, hrequests⟩ := hisolated.log
  have hiff : TokensIsolated io path caller m m' ↔
      NoneSentAway io (extractServerName path) m.rest m'.rest := by
    constructor
    · rintro ⟨-, -, -, events', hlog', -, hall⟩ later request earlier heq url hurl
      have hevents : events' = later ++ .sent request :: earlier := by
        refine @List.append_cancel_right _ _ m.rest.log _ ?_
        rw [← hlog', heq, List.append_assoc, List.cons_append]
      have hmem : { request with url } ∈ request.transfer io (earlier ++ m.rest.log) :=
        List.mem_cons_of_mem _ (List.mem_map_of_mem hurl)
      obtain ⟨params, hparams, hown⟩ := hall later request earlier hevents _ hmem
      exact ⟨params, hparams, hown.url⟩
    · intro hstays
      refine ⟨hisolated.tokens, hisolated.settings.serverExists,
        hisolated.settings.getServerParams, events, hlog, htoken, ?_⟩
      intro later request earlier heq sent hsent
      obtain ⟨params, hparams, hown⟩ := hrequests later request earlier heq
      rcases List.mem_cons.1 hsent with rfl | hfollows
      · exact ⟨params, hparams, hown⟩
      -- the headers are those of the first request; where it goes is up to the answer
      · obtain ⟨url, hurl, rfl⟩ := List.mem_map.1 hfollows
        have hwhole : m'.rest.log = later ++ .sent request :: (earlier ++ m.rest.log) := by
          rw [hlog, heq, List.append_assoc, List.cons_append]
        obtain ⟨params', hparams', hserves⟩ := hstays later request earlier hwhole url hurl
        obtain rfl := Option.some.inj (hparams.symm.trans hparams')
        exact ⟨params, hparams, hserves, hown.headers⟩
  exact ⟨hiff, fun hnone ↦ hiff.2 (noneSentAway_of_redirects_eq_nil hnone)⟩

end Isolation

/-- The servers of the sample mount take requests for tokens. -/
theorem requestModes_holdersMount : RequestModes holdersMount.rest.servers := by
  intro name params hparams
  obtain ⟨srv, hfind, rfl⟩ := Option.map_eq_some_iff.1 hparams
  rw [show holdersMount.rest.servers = twoHolders from rfl, twoHolders,
    Table.find_insert] at hfind
  split_ifs at hfind with hname
  · exact Or.inl (by rw [← Option.some.inj hfind])
  · cases hfind

/-- A user without a token looks at a scope, which asks for tokens twice, and no answer redirects.
The tokens of the two users that have one stay, and all requests go to the address of the server. -/
theorem token_isolation_iff_no_token :
    ∃ m', Callback.run oneScopeIo ['/', 's', '/', 'x'] { sampleCaller with uid := 9 } holdersMount
        (.getattr {}) = .ok m' ∧
      m'.rest.storedToken ['s'] 7 = some ⟨['t'], {}, 2000000⟩ ∧
      TokensIsolated oneScopeIo ['/', 's', '/', 'x'] { sampleCaller with uid := 9 } holdersMount
        m' := by
  have hrun : (fun _ ↦ ()) <$> Callback.run oneScopeIo ['/', 's', '/', 'x']
      { sampleCaller with uid := 9 } holdersMount (.getattr {}) = .ok () := by decide +kernel
  obtain ⟨m', hm, -⟩ := map_eq_ok hrun
  have hisolated := (token_isolation_iff requestModes_holdersMount hm).2 fun _ _ ↦ rfl
  exact ⟨m', hm, (hisolated.tokens _ _ (by decide +kernel)).trans rfl, hisolated⟩

/-- A server that answers the request for its scopes by a redirect to the address `e`. -/
def redirectingIo : Io := { oneScopeIo with redirects := fun _ _ ↦ [['e']] }

/-- The request for the scopes of the server, with the token of user 7. -/
def scopesRequest : Request where
  url := "h/scopes/".toList
  headers := [tokenHeader ['t']]
  timeout := defaultTimeout

/-- A user with a token lists the server. libcurl follows the redirect, so the token goes to `e`,
which is no address of the server. -/
theorem token_sent_away : RequestModes holdersMount.rest.servers ∧
    ∃ m', Callback.run redirectingIo ['/', 's'] sampleCaller holdersMount .readdir = .ok m' ∧
      (∃ sent ∈ scopesRequest.transfer redirectingIo holdersMount.rest.log,
        sent.url = ['e'] ∧ sent.headers = [tokenHeader ['t']]) ∧
      ¬TokensIsolated redirectingIo ['/', 's'] sampleCaller holdersMount m' := by
  have hrun : (fun m' : Mount ↦ m'.rest.log) <$> Callback.run redirectingIo ['/', 's'] sampleCaller
      holdersMount .readdir = .ok [.stored .scopes [['s']] ['s'], .sent scopesRequest] := by
    decide +kernel
  obtain ⟨m', hm, hlog⟩ := map_eq_ok hrun
  have haway : { scopesRequest with url := ['e'] } ∈
      scopesRequest.transfer redirectingIo holdersMount.rest.log :=
    List.mem_cons_of_mem _ List.mem_cons_self
  refine ⟨requestModes_holdersMount, m', hm, ⟨_, haway, rfl, rfl⟩, fun hisolated ↦ ?_⟩
  obtain ⟨events, hevents, -, hall⟩ := hisolated.requests
  have hsent : events = [.stored .scopes [['s']] ['s']] ++ .sent scopesRequest :: [] :=
    (List.append_nil events).symm.trans (hevents.symm.trans hlog)
  obtain ⟨params, hparams, hown⟩ := hall _ _ _ hsent _ haway
  rw [show extractServerName ['/', 's'] = ['s'] by decide +kernel] at hparams
  have hurl : params.serverUrl = ['h'] := by
    rw [← Option.some.inj (show some _ = some params from hparams)]
  obtain ⟨resource, -, heq⟩ := hown.url
  rw [hurl] at heq
  exact absurd (List.cons.inj heq).1 (by decide)

end FusePosix
