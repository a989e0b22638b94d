import FusePosix.Rest.Calls
import FusePosix.Utils.DidChunks

/-!
# Listings are shared

Tokens belong to users, listings do not: the caches of the three listing functions are keyed by the
names only, so a user may be served what the server has told another one
(`listing_of_another_user`). What can be said is this. If the server answers the calls that a user
has in common with others alike for all of them, the user cannot tell whether the others are there:
the results are those of the run without them (`listings_agree_without_others`).

The server is a function of the address and the headers of a request, and the users hold valid
tokens. Two more conditions keep apart what is not about sharing: entities with the same cache key
are confused whoever asks (`FusePosix.Rest.Keys`), and the remainder of an incomplete listing gets
in front of the next one.
-/

namespace FusePosix

/-! ### What the server tells a user -/

/-- A Rucio server: what it answers to an address and the headers of a request. -/
abbrev RucioAnswers := Str → List Str → CurlRet

/-- The server a query is sent to. -/
def Query.server : Query → Str
  | .scopes server => server
  | .dids server _ => server
  | .containerDids server _ _ => server
  | .isContainer path => extractServerName path
  | .size path => extractServerName path

/-- Whether a query is a listing. -/
def Query.IsListing : Query → Prop
  | .scopes _ | .dids _ _ | .containerDids _ _ _ => True
  | _ => False

/-- The cache and the key of a listing. -/
def Query.cacheAndKey : Query → CacheName × Str
  | .scopes server => (.scopes, server)
  | .dids server scope => (.dids, cacheKey [server, scope])
  | .containerDids server scope name => (.containerDids, cacheKey [server, scope, name])
  | .isContainer path => (.isContainer, path)
  | .size path => (.fileSize, path)

/-- The address of a listing, below that of the server. -/
def Query.resource : Query → Str
  | .scopes _ => "/scopes/".toList
  | .dids _ scope => "/dids/".toList ++ scope ++ ['/']
  | .containerDids _ scope name => "/dids/".toList ++ scope ++ ['/'] ++ name ++ "/dids".toList
  | _ => []

/-- What a listing makes of an answer, if no remainder is in front of it. -/
def Query.parse (ret : CurlRet) : Query → Except Fault Answer
  | .scopes _ =>
    if !ret.ok then return .scopes [] else return .scopes (← tokenizeAll ret.payload [])
  | .dids _ _ => if !ret.ok then return .dids [] else
      return .dids (← structurizeAll structurizeDid [] ret.payload []).2
  | .containerDids _ _ _ => if !ret.ok then return .dids [] else
      return .dids (← structurizeAll structurizeContainerDid [] ret.payload []).2
  | _ => .error .undefined

/-- An answer after which nothing remains to be parsed. -/
def Query.Whole (ret : CurlRet) : Query → Prop
  | .dids _ _ => ∀ parsed, structurizeAll structurizeDid [] ret.payload [] = .ok parsed →
      parsed.1 = []
  | .containerDids _ _ _ =>
      ∀ parsed, structurizeAll structurizeContainerDid [] ret.payload [] = .ok parsed →
        parsed.1 = []
  | _ => True

/-- **A body of flat records is whole**, however it is cut into chunks. -/
theorem whole_of_joined {records : List Str}
    (hflat : ∀ r ∈ records, Reassembly.Flat didMarks r) (final : Bool) {ret : CurlRet}
    (hbody : ret.payload.flatten = Reassembly.joined didMarks records final) (query : Query) :
    query.Whole ret := by
  have hjoined : ∀ (fill : Table Str Str → RucioDid) (parsed : Str × List RucioDid),
      structurizeAll (structurizeWith mapDid fill) [] ret.payload [] = .ok parsed →
        parsed.1 = [] := by
    intro fill parsed h
    rw [structurizeAll_joined hflat final hbody] at h
    obtain ⟨dids, -, hret⟩ := bind_eq_ok.1 h
    obtain rfl := Except.ok.inj hret
    rfl
  cases query with
  | dids server scope => exact hjoined didOfMap
  | containerDids server scope name => exact hjoined containerDidOfMap
  | scopes | isContainer | size => exact trivial

/-- What the server answers to a call, with the token of its user. -/
def RestCall.body (rucio : RucioAnswers) (s : State) (call : RestCall) : CurlRet :=
  let url := ((getServerParams s.servers call.query.server).map
    ConnectionParameters.serverUrl).getD []
  rucio (cStr (url ++ call.query.resource))
    [cStr (tokenHeader (s.tokenOf call.query.server call.caller.uid).connToken)]

/-- A listing call by a user with a valid token, in a world where a server answers. -/
structure RestCall.ByHolder (rucio : RucioAnswers) (s : State) (call : RestCall) : Prop where
  asks : ∀ log request, call.io.net log request = rucio request.url request.headers
  listing : call.query.IsListing
  valid : (rucioIsTokenValid call.io call.query.server call.caller.uid s).1 = true
  whole : call.query.Whole (call.body rucio s)

/-! ### Valid tokens stay -/

section Valid

variable {io : Io} {server : Str} {caller : Caller} {s : State}

theorem insert_eq_self {κ ν : Type*} [DecidableEq κ] {table : Table κ ν} {k : κ} {v : ν}
    (h : table.find k = some v) : table.insert k v = table := by
  funext l
  show (if l = k then some v else table l) = table l
  split_ifs with hl
  · rw [hl]
    exact h.symm
  · rfl

/-- A valid token is one of a loaded server, and looking it up changes nothing. -/
theorem exists_of_valid {uid : ℕ} (h : (rucioIsTokenValid io server uid s).1 = true) :
    ∃ srv, s.servers.find server = some srv ∧
      getServerToken s.servers server uid = (some (srv.token uid), s.servers) ∧
      (srv.token uid).validAt io.now = true := by
  rcases hfind : s.servers.find server with - | srv
  · simp [rucioIsTokenValid, getServerToken, hfind] at h
  · have hvalid : (srv.token uid).validAt io.now = true := by
      simpa [rucioIsTokenValid, getServerToken, hfind] using h
    refine ⟨srv, rfl, ?_, hvalid⟩
    rcases htoken : srv.rucioTokenInfos.find uid with - | info
    · simp [RucioServer.token, htoken, TokenInfo.validAt] at hvalid
    · have hkeep : srv.setToken uid (srv.token uid) = srv := by
        rw [RucioServer.setToken, RucioServer.token, htoken, Option.getD_some,
          insert_eq_self htoken]
      rw [getServerToken, hfind]
      show (some (srv.token uid), storeToken s.servers server uid (srv.token uid)) = _
      rw [storeToken, hfind]
      show (some (srv.token uid), s.servers.insert server (srv.setToken uid (srv.token uid))) = _
      rw [hkeep, insert_eq_self hfind]

/-- **With a valid token the headers carry it and nothing is asked for.** -/
theorem getAuthHeaders_of_valid
    (h : (rucioIsTokenValid io server caller.uid s).1 = true) :
    getAuthHeaders io server caller s =
      .ok (some [tokenHeader (s.tokenOf server caller.uid).connToken], s) := by
  obtain ⟨srv, hfind, hlookup, hvalid⟩ := exists_of_valid h
  have hparams := getServerParams_of_find hfind
  have hcheck : rucioIsTokenValid io server caller.uid s = (true, s) := by
    rw [rucioIsTokenValid, hlookup]
    show ((srv.token caller.uid).validAt io.now, s) = _
    rw [hvalid]
  rw [getAuthHeaders, hparams, hlookup]
  simp only [hcheck]
  rfl

end Valid

/-! ### What a listing call does -/

/-- The entry of a listing, whatever its age. -/
def State.entry (s : State) : Query → Option Answer
  | .scopes server => (s.scopesCache.find server).map fun found ↦ .scopes found.2
  | .dids server scope => (s.didsCache.find (cacheKey [server, scope])).map fun found ↦
      .dids found.2
  | .containerDids server scope name =>
      (s.containerDidsCache.find (cacheKey [server, scope, name])).map fun found ↦ .dids found.2
  | _ => none

/-- The entry of a listing and the end of its life. -/
def State.expiring (s : State) : Query → Option (ℤ × Answer)
  | .scopes server => (s.scopesCache.find server).map fun found ↦ (found.1, .scopes found.2)
  | .dids server scope => (s.didsCache.find (cacheKey [server, scope])).map fun found ↦
      (found.1, .dids found.2)
  | .containerDids server scope name =>
      (s.containerDidsCache.find (cacheKey [server, scope, name])).map fun found ↦
        (found.1, .dids found.2)
  | _ => none

/-- What a call makes of the answer of the server. -/
def RestCall.parsed (rucio : RucioAnswers) (s : State) (call : RestCall) : Except Fault Answer :=
  call.query.parse (call.body rucio s)

/-- What a listing call does: its answer is the entry or what the server says, and no entry changes
but its own, which then holds what the server says. -/
structure Listed (rucio : RucioAnswers) (s : State) (call : RestCall) (answer : Answer)
    (t : State) : Prop where
  servers : t.servers = s.servers
  remainder : t.didStringRemainder = []
  answered : s.entry call.query = some answer ∨ call.parsed rucio s = .ok answer
  entries : ∀ query, t.entry query = s.entry query ∨
    (query.cacheAndKey = call.query.cacheAndKey ∧ t.entry query = some answer ∧
      call.parsed rucio s = .ok answer)

section Listed

variable {rucio : RucioAnswers} {call : RestCall} {s t : State}

/-- The header that carries the token of the user of a call. -/
def RestCall.header (s : State) (call : RestCall) : Str :=
  tokenHeader (s.tokenOf call.query.server call.caller.uid).connToken

/-- The response to a listing call. -/
theorem exists_safeGET (h : call.ByHolder rucio s) :
    ∃ params request, getServerParams s.servers call.query.server = some params ∧
      safeGET call.io (dataRequest params call.query.resource [call.header s]) s =
        (call.body rucio s, s.note (.sent request)) := by
  obtain ⟨srv, hfind, -, -⟩ := exists_of_valid h.valid
  have hparams := getServerParams_of_find hfind
  have hret : (safeGET call.io (dataRequest srv.rucioConnParams call.query.resource
      [call.header s]) s).1 = call.body rucio s := by
    rw [safeGET_eq, curlGET, h.asks, RestCall.body, hparams]
    rfl
  exact ⟨srv.rucioConnParams, _, hparams, Prod.ext hret rfl⟩

/-- The scopes, asked for by a user with a valid token. -/
theorem fetchScopes_of_holder {io : Io} {caller : Caller} {server : Str} {body : CurlRet}
    (h : (RestCall.mk io caller (.scopes server)).ByHolder rucio s)
    (hbody : (RestCall.mk io caller (.scopes server)).body rucio s = body) :
    ∃ request, fetchScopes io server caller s =
      if !body.ok then .ok ([], s.note (.sent request))
      else do
        let scopes ← tokenizeAll body.payload []
        return (scopes, (s.note (.sent request)).setScopes server
          (io.now + chacheDuration, scopes)) := by
  obtain ⟨params, request, hparams, hget⟩ := exists_safeGET h
  have hheaders : getAuthHeaders io server caller s = _ := getAuthHeaders_of_valid h.valid
  have hparams' : getServerParams s.servers server = some params := hparams
  have hget' : safeGET io (dataRequest params "/scopes/".toList
      [tokenHeader (s.tokenOf server caller.uid).connToken]) s = (body, s.note (.sent request)) :=
    hbody ▸ hget
  refine ⟨request, ?_⟩
  rw [fetchScopes, hheaders, ok_bind]
  simp only [hparams', hget', pure_eq_ok]

/-- The DIDs, asked for by a user with a valid token. -/
theorem fetchDids_of_holder {io : Io} {caller : Caller} {server scope resource : Str}
    {query : Query}
    {body : CurlRet} {store : State → ℤ × List RucioDid → State}
    {structurize : Str → Str → List RucioDid → Except Fault (Str × List RucioDid)}
    (h : (RestCall.mk io caller query).ByHolder rucio s) (hserver : query.server = server)
    (hresource : query.resource = resource)
    (hbody : (RestCall.mk io caller query).body rucio s = body) :
    ∃ request, fetchDids io server scope resource caller structurize store s =
      if !body.ok then .ok ([], s.note (.sent request))
      else do
        let parsed ← structurizeAll structurize s.didStringRemainder body.payload []
        return (parsed.2, store
          ({ s.note (.sent request) with didStringRemainder := parsed.1 }.primeLookups server scope
            parsed.2) (io.now + chacheDuration, parsed.2)) := by
  subst hserver hresource
  obtain ⟨params, request, hparams, hget⟩ := exists_safeGET h
  have hheaders : getAuthHeaders io query.server caller s = _ := getAuthHeaders_of_valid h.valid
  have hget' : safeGET io (dataRequest params query.resource
      [tokenHeader (s.tokenOf query.server caller.uid).connToken]) s =
        (body, s.note (.sent request)) := hbody ▸ hget
  have hparams' : getServerParams s.servers query.server = some params := hparams
  refine ⟨request, ?_⟩
  rw [fetchDids, hheaders, ok_bind]
  simp only [hparams', deref_some, ok_bind, hget', pure_eq_ok]
  split_ifs with hok
  · rfl
  · rw [parseDids]
    show ((structurizeAll structurize s.didStringRemainder body.payload [] >>= fun parsed ↦ _) >>=
      fun parsed ↦ _) = _
    rcases structurizeAll structurize s.didStringRemainder body.payload [] with fault | parsed
    · rfl
    · rfl

/-- An entry is what does not expire of it. -/
theorem entry_eq_map_expiring (s : State) (query : Query) :
    s.entry query = (s.expiring query).map Prod.snd := by
  cases query with
  | scopes | dids | containerDids => simp [State.entry, State.expiring, Function.comp_def]
  | isContainer | size => rfl

/-- Noting what a listing says about single DIDs leaves the listings alone. -/
theorem primeLookups_frame (server scope : Str) (dids : List RucioDid) : ∀ s : State,
    (s.primeLookups server scope dids).servers = s.servers ∧
      (s.primeLookups server scope dids).didStringRemainder = s.didStringRemainder ∧
      (s.primeLookups server scope dids).expiring = s.expiring := by
  induction dids with
  | nil => exact fun s ↦ ⟨rfl, rfl, rfl⟩
  | cons did dids ih =>
    intro s
    obtain ⟨hservers, hremainder, hexpiring⟩ := ih (s.primeLookup server scope did)
    refine ⟨hservers, hremainder, hexpiring.trans (funext fun query ↦ ?_)⟩
    cases query <;> rfl

theorem expiring_note (e : Event) : (s.note e).expiring = s.expiring := by
  funext query
  cases query <;> rfl

theorem expiring_setScopes (server : Str) (entry : ℤ × List Str) (query : Query) :
    (s.setScopes server entry).expiring query =
      if query.cacheAndKey = (.scopes, server) then some (entry.1, .scopes entry.2)
      else s.expiring query := by
  cases query with
  | scopes other =>
    show ((s.scopesCache.insert server entry).find other).map _ = _
    rw [Table.map_find_insert]
    simp [Query.cacheAndKey, State.expiring]
  | dids | containerDids | isContainer | size => simp [Query.cacheAndKey]; rfl

theorem expiring_setDids (server scope : Str) (entry : ℤ × List RucioDid) (query : Query) :
    (s.setDids [server, scope] entry).expiring query =
      if query.cacheAndKey = (.dids, cacheKey [server, scope]) then some (entry.1, .dids entry.2)
      else s.expiring query := by
  cases query with
  | dids other otherScope =>
    show ((s.didsCache.insert (cacheKey [server, scope]) entry).find _).map _ = _
    rw [Table.map_find_insert]
    simp [Query.cacheAndKey, State.expiring]
  | scopes | containerDids | isContainer | size => simp [Query.cacheAndKey]; rfl

theorem expiring_setContainerDids (server scope name : Str) (entry : ℤ × List RucioDid)
    (query : Query) :
    (s.setContainerDids [server, scope, name] entry).expiring query =
      if query.cacheAndKey = (.containerDids, cacheKey [server, scope, name]) then
        some (entry.1, .dids entry.2)
      else s.expiring query := by
  cases query with
  | containerDids other otherScope otherName =>
    show ((s.containerDidsCache.insert (cacheKey [server, scope, name]) entry).find _).map _ = _
    rw [Table.map_find_insert]
    simp [Query.cacheAndKey, State.expiring]
  | scopes | dids | isContainer | size => simp [Query.cacheAndKey]; rfl

theorem entry_note (e : Event) : (s.note e).entry = s.entry := by
  funext query
  rw [entry_eq_map_expiring, expiring_note, entry_eq_map_expiring]

/-- A response that is an error stores nothing. -/
theorem listed_of_not_ok {answer : Answer} (hremainder : s.didStringRemainder = [])
    (request : Request) (hparsed : call.parsed rucio s = .ok answer) :
    Listed rucio s call answer (s.note (.sent request)) where
  servers := rfl
  remainder := hremainder
  answered := Or.inr hparsed
  entries query := Or.inl (congrFun (entry_note _) query)

theorem entry_setScopes (server : Str) (entry : ℤ × List Str) (query : Query) :
    (s.setScopes server entry).entry query =
      if query.cacheAndKey = (.scopes, server) then some (.scopes entry.2) else s.entry query := by
  rw [entry_eq_map_expiring, expiring_setScopes, apply_ite (Option.map Prod.snd),
    entry_eq_map_expiring]
  rfl

theorem listed_fetchScopes {io : Io} {caller : Caller} {server : Str} {scopes : List Str}
    (h : (RestCall.mk io caller (.scopes server)).ByHolder rucio s)
    (hremainder : s.didStringRemainder = [])
    (hrun : fetchScopes io server caller s = .ok (scopes, t)) :
    Listed rucio s ⟨io, caller, .scopes server⟩ (.scopes scopes) t := by
  obtain ⟨request, hfetch⟩ := fetchScopes_of_holder h rfl
  rw [hfetch] at hrun
  split_ifs at hrun with hok
  · obtain ⟨rfl, rfl⟩ := Prod.mk.inj (Except.ok.inj hrun)
    refine listed_of_not_ok hremainder request ?_
    show (if _ then _ else _) = _
    rw [if_pos hok, pure_eq_ok]
  · obtain ⟨parsed, hparse, hrun⟩ := bind_eq_ok.1 hrun
    obtain ⟨rfl, rfl⟩ := Prod.mk.inj (Except.ok.inj hrun)
    have hparsed : RestCall.parsed rucio s ⟨io, caller, .scopes server⟩ = .ok (.scopes parsed) := by
      show (if _ then _ else _) = _
      rw [if_neg hok, hparse, ok_bind, pure_eq_ok]
    refine ⟨rfl, hremainder, Or.inr hparsed, fun query ↦ ?_⟩
    rw [entry_setScopes, entry_note]
    split_ifs with hkey
    · exact Or.inr ⟨hkey, rfl, hparsed⟩
    · exact Or.inl rfl

theorem entry_setDids (server scope : Str) (entry : ℤ × List RucioDid) (query : Query) :
    (s.setDids [server, scope] entry).entry query =
      if query.cacheAndKey = (.dids, cacheKey [server, scope]) then some (.dids entry.2)
      else s.entry query := by
  rw [entry_eq_map_expiring, expiring_setDids, apply_ite (Option.map Prod.snd),
    entry_eq_map_expiring]
  rfl

theorem entry_setContainerDids (server scope name : Str) (entry : ℤ × List RucioDid)
    (query : Query) :
    (s.setContainerDids [server, scope, name] entry).entry query =
      if query.cacheAndKey = (.containerDids, cacheKey [server, scope, name]) then
        some (.dids entry.2)
      else s.entry query := by
  rw [entry_eq_map_expiring, expiring_setContainerDids, apply_ite (Option.map Prod.snd),
    entry_eq_map_expiring]
  rfl

/-- How a DID listing is stored: its own entry changes, and nothing else a listing looks at. -/
structure StoresAt (query : Query) (store : State → ℤ × List RucioDid → State) : Prop where
  servers : ∀ s entry, (store s entry).servers = s.servers
  remainder : ∀ s entry, (store s entry).didStringRemainder = s.didStringRemainder
  entry : ∀ s entry other, (store s entry).entry other =
    if other.cacheAndKey = query.cacheAndKey then some (.dids entry.2) else s.entry other

/-- How a DID listing is parsed. -/
structure ParsesWith (query : Query)
    (structurize : Str → Str → List RucioDid → Except Fault (Str × List RucioDid)) : Prop where
  parse : ∀ ret, query.parse ret = if !ret.ok then .ok (.dids []) else do
    return .dids (← structurizeAll structurize [] ret.payload []).2
  whole : ∀ ret, query.Whole ret → ∀ parsed,
    structurizeAll structurize [] ret.payload [] = .ok parsed → parsed.1 = []

theorem listed_fetchDids {io : Io} {caller : Caller} {query : Query} {scope : Str}
    {dids : List RucioDid} {store : State → ℤ × List RucioDid → State}
    {structurize : Str → Str → List RucioDid → Except Fault (Str × List RucioDid)}
    (h : (RestCall.mk io caller query).ByHolder rucio s) (hstore : StoresAt query store)
    (hparses : ParsesWith query structurize) (hremainder : s.didStringRemainder = [])
    (hrun : fetchDids io query.server scope query.resource caller structurize store s =
      .ok (dids, t)) :
    Listed rucio s ⟨io, caller, query⟩ (.dids dids) t := by
  obtain ⟨request, hfetch⟩ := fetchDids_of_holder h rfl rfl rfl
  have hparse := hparses.parse ((RestCall.mk io caller query).body rucio s)
  rw [hfetch, hremainder] at hrun
  split_ifs at hrun with hok
  · obtain ⟨rfl, rfl⟩ := Prod.mk.inj (Except.ok.inj hrun)
    rw [if_pos hok] at hparse
    exact listed_of_not_ok hremainder request hparse
  · obtain ⟨parsed, hstructurize, hrun⟩ := bind_eq_ok.1 hrun
    obtain ⟨rfl, rfl⟩ := Prod.mk.inj (Except.ok.inj hrun)
    rw [if_neg hok, hstructurize, ok_bind, pure_eq_ok] at hparse
    have hwhole : parsed.1 = [] := hparses.whole _ h.whole parsed hstructurize
    obtain ⟨hservers, hrest, hexpiring⟩ := primeLookups_frame query.server scope parsed.2
      { s.note (.sent request) with didStringRemainder := parsed.1 }
    refine ⟨(hstore.servers _ _).trans hservers, ?_, Or.inr hparse, fun other ↦ ?_⟩
    · rw [hstore.remainder, hrest]
      exact hwhole
    · rw [hstore.entry, entry_eq_map_expiring, hexpiring]
      split_ifs with hkey
      · exact Or.inr ⟨hkey, rfl, hparse⟩
      · refine Or.inl ?_
        rw [entry_eq_map_expiring]
        cases other <;> rfl

/-- An answer from an entry changes nothing. -/
theorem listed_of_used {answer : Answer} (hremainder : s.didStringRemainder = []) (e : Event)
    (hentry : s.entry call.query = some answer) : Listed rucio s call answer (s.note e) where
  servers := rfl
  remainder := hremainder
  answered := Or.inl hentry
  entries query := Or.inl (congrFun (entry_note e) query)

theorem storesAt_setDids (server scope : Str) :
    StoresAt (.dids server scope) fun s entry ↦ s.setDids [server, scope] entry :=
  ⟨fun _ _ ↦ rfl, fun _ _ ↦ rfl, fun _ entry other ↦ entry_setDids server scope entry other⟩

theorem storesAt_setContainerDids (server scope name : Str) :
    StoresAt (.containerDids server scope name) fun s entry ↦
      s.setContainerDids [server, scope, name] entry :=
  ⟨fun _ _ ↦ rfl, fun _ _ ↦ rfl,
    fun _ entry other ↦ entry_setContainerDids server scope name entry other⟩

/-- **What a listing call by a user with a valid token does.** -/
theorem listed_of_run {answer : Answer} (h : call.ByHolder rucio s)
    (hremainder : s.didStringRemainder = []) (hrun : call.run s = .ok (answer, t)) :
    Listed rucio s call answer t := by
  obtain ⟨io, caller, query⟩ := call
  cases RestCall.runs_of_eq_ok hrun with
  | scopes hcall =>
    rcases rucioListScopes_eq_ok hcall with ⟨hfetch, -⟩ | ⟨expiry, hfound, -, rfl⟩
    · exact listed_fetchScopes h hremainder hfetch
    · refine listed_of_used hremainder _ ?_
      show (s.scopesCache.find _).map _ = _
      rw [hfound, Option.map_some]
  | @dids server scope _ _ hcall =>
    have hparses : ParsesWith (.dids server scope) structurizeDid :=
      ⟨fun _ ↦ rfl, fun _ hwhole ↦ hwhole⟩
    rcases rucioListDids_eq_ok hcall with ⟨hfetch, -⟩ | ⟨expiry, hfound, -, rfl⟩
    · exact listed_fetchDids h (storesAt_setDids server scope) hparses hremainder hfetch
    · refine listed_of_used hremainder _ ?_
      show (s.didsCache.find _).map _ = _
      rw [hfound, Option.map_some]
  | @containerDids server scope name _ _ hcall =>
    have hparses : ParsesWith (.containerDids server scope name) structurizeContainerDid :=
      ⟨fun _ ↦ rfl, fun _ hwhole ↦ hwhole⟩
    rcases rucioListContainerDids_eq_ok hcall with ⟨hfetch, -⟩ | ⟨expiry, hfound, -, rfl⟩
    · exact listed_fetchDids h (storesAt_setContainerDids server scope name) hparses hremainder
        hfetch
    · refine listed_of_used hremainder _ ?_
      show (s.containerDidsCache.find _).map _ = _
      rw [hfound, Option.map_some]
  | isContainer => exact absurd h.listing (by simp [Query.IsListing])
  | size => exact absurd h.listing (by simp [Query.IsListing])

/-- What comes back for the scopes can be fetched. -/
theorem exists_fetchScopes {io : Io} {caller : Caller} {server : Str} {answer : Answer}
    (h : (RestCall.mk io caller (.scopes server)).ByHolder rucio s)
    (hparsed : RestCall.parsed rucio s ⟨io, caller, .scopes server⟩ = .ok answer) :
    ∃ result, fetchScopes io server caller s = .ok result := by
  obtain ⟨request, hfetch⟩ := fetchScopes_of_holder h rfl
  rw [hfetch]
  split_ifs with hok
  · exact ⟨_, rfl⟩
  · have hsplit : (if _ then _ else _) = Except.ok answer := hparsed
    rw [if_neg hok] at hsplit
    obtain ⟨scopes, hscopes, -⟩ := bind_eq_ok.1 hsplit
    rw [hscopes]
    exact ⟨_, rfl⟩

/-- What comes back for the DIDs can be fetched. -/
theorem exists_fetchDids {io : Io} {caller : Caller} {query : Query} {scope : Str} {answer : Answer}
    {store : State → ℤ × List RucioDid → State}
    {structurize : Str → Str → List RucioDid → Except Fault (Str × List RucioDid)}
    (h : (RestCall.mk io caller query).ByHolder rucio s) (hparses : ParsesWith query structurize)
    (hremainder : s.didStringRemainder = [])
    (hparsed : RestCall.parsed rucio s ⟨io, caller, query⟩ = .ok answer) :
    ∃ result, fetchDids io query.server scope query.resource caller structurize store s =
      .ok result := by
  obtain ⟨request, hfetch⟩ := fetchDids_of_holder h rfl rfl rfl
  have hparse := (hparses.parse ((RestCall.mk io caller query).body rucio s)).symm.trans hparsed
  rw [hfetch, hremainder]
  split_ifs with hok
  · exact ⟨_, rfl⟩
  · rw [if_neg hok] at hparse
    obtain ⟨parsed, hstructurize, -⟩ := bind_eq_ok.1 hparse
    rw [hstructurize]
    exact ⟨_, rfl⟩

/-- A listing returns if its fetch does. -/
theorem exists_of_fetch {α : Type} (found : Option (ℤ × α)) (now : ℤ) (used : State)
    {fetch listing : Except Fault (α × State)} (hfetch : ∃ result, fetch = .ok result)
    (hnone : found = none → listing = fetch)
    (hsome : ∀ entry, found = some entry →
      listing = if entry.1 < now then fetch else .ok (entry.2, used)) :
    ∃ result, listing = .ok result := by
  rcases hfound : found with - | entry
  · rwa [hnone hfound]
  · rw [hsome entry hfound]
    split_ifs
    · exact hfetch
    · exact ⟨_, rfl⟩

/-- **A listing call returns if what comes back can be parsed.** -/
theorem exists_run {answer : Answer} (h : call.ByHolder rucio s)
    (hremainder : s.didStringRemainder = []) (hparsed : call.parsed rucio s = .ok answer) :
    ∃ result, call.run s = .ok result := by
  obtain ⟨io, caller, query⟩ := call
  -- the three listings fetch by one pattern; they differ in the cache they ask and in the parser
  cases query with
  | scopes server =>
    have hlist : ∃ result, rucioListScopes io server caller s = .ok result := by
      refine exists_of_fetch (s.scopesCache.find server) io.now
        (s.note (.used .scopes [server] server)) (exists_fetchScopes h hparsed)
        (fun hnone ↦ ?_) fun entry hsome ↦ ?_
      · rw [rucioListScopes, hnone]
      · rw [rucioListScopes, hsome]
        rfl
    obtain ⟨result, hresult⟩ := hlist
    exact ⟨_, bind_eq_ok.2 ⟨result, hresult, rfl⟩⟩
  | dids server scope =>
    have hparses : ParsesWith (.dids server scope) structurizeDid :=
      ⟨fun _ ↦ rfl, fun _ hwhole ↦ hwhole⟩
    have hlist : ∃ result, rucioListDids io scope server caller s = .ok result := by
      refine exists_of_fetch (s.didsCache.find (cacheKey [server, scope])) io.now
        (s.note (.used .dids [server, scope] (cacheKey [server, scope])))
        (@exists_fetchDids _ _ _ _ _ scope _ (fun s entry ↦ s.setDids [server, scope] entry) _ h
          hparses hremainder hparsed) (fun hnone ↦ ?_) fun entry hsome ↦ ?_
      · rw [rucioListDids, hnone]
        rfl
      · rw [rucioListDids, hsome]
        rfl
    obtain ⟨result, hresult⟩ := hlist
    exact ⟨_, bind_eq_ok.2 ⟨result, hresult, rfl⟩⟩
  | containerDids server scope name =>
    have hparses : ParsesWith (.containerDids server scope name) structurizeContainerDid :=
      ⟨fun _ ↦ rfl, fun _ hwhole ↦ hwhole⟩
    have hlist : ∃ result, rucioListContainerDids io scope name server caller s = .ok result := by
      refine exists_of_fetch (s.containerDidsCache.find (cacheKey [server, scope, name])) io.now
        (s.note (.used .containerDids [server, scope, name] (cacheKey [server, scope, name])))
        (@exists_fetchDids _ _ _ _ _ scope _
          (fun s entry ↦ s.setContainerDids [server, scope, name] entry) _ h hparses hremainder
          hparsed) (fun hnone ↦ ?_) fun entry hsome ↦ ?_
      · rw [rucioListContainerDids, hnone]
        rfl
      · rw [rucioListContainerDids, hsome]
        rfl
    obtain ⟨result, hresult⟩ := hlist
    exact ⟨_, bind_eq_ok.2 ⟨result, hresult, rfl⟩⟩
  | isContainer path => exact absurd h.listing (by simp [Query.IsListing])
  | size path => exact absurd h.listing (by simp [Query.IsListing])

end Listed

/-! ### Runs -/

/-- The answers of a run, each with the user it is for. -/
def State.answers (s : State) : List RestCall → Option (List (ℕ × Answer))
  | [] => some []
  | call :: calls => do
    let (answer, s) ← (call.run s).toOption
    let rest ← s.answers calls
    return (call.caller.uid, answer) :: rest

/-- The calls of one user. -/
def callsOf (uid : ℕ) (calls : List RestCall) : List RestCall :=
  calls.filter fun call ↦ call.caller.uid = uid

/-- The answers to one user. -/
def answersTo (uid : ℕ) (answers : List (ℕ × Answer)) : List (ℕ × Answer) :=
  answers.filter fun answer ↦ answer.1 = uid

/-- What holds between the calls of a run for a user: the tokens are those of the start, nothing is
left to be parsed, and what is cached of the user's listings is what the server tells the user. -/
structure Faithful (rucio : RucioAnswers) (start : State) (own : List RestCall) (s : State) :
    Prop where
  servers : s.servers = start.servers
  remainder : s.didStringRemainder = []
  entries : ∀ call ∈ own, ∀ answer, s.entry call.query = some answer →
    call.parsed rucio start = .ok answer

/-- The calls of a run are alike for a user: a call with the cache key of one of the user's is the
same call, and is answered the same. -/
def AlikeFor (rucio : RucioAnswers) (start : State) (own calls : List RestCall) : Prop :=
  ∀ call ∈ calls, ∀ mine ∈ own, call.query.cacheAndKey = mine.query.cacheAndKey →
    call.query = mine.query ∧ call.body rucio start = mine.body rucio start

section Runs

variable {rucio : RucioAnswers} {start s t : State} {own : List RestCall} {call : RestCall}

theorem body_congr (hs : s.servers = start.servers) :
    call.body rucio s = call.body rucio start := by
  rw [RestCall.body, RestCall.body, State.tokenOf, State.tokenOf, hs]

theorem parsed_congr (hs : s.servers = start.servers) :
    call.parsed rucio s = call.parsed rucio start := by
  rw [RestCall.parsed, RestCall.parsed, body_congr hs]

/-- Whether a call is by the holder of a valid token depends on the tokens only. -/
theorem byHolder_congr (h : call.ByHolder rucio start) (hs : s.servers = start.servers) :
    call.ByHolder rucio s where
  asks := h.asks
  listing := h.listing
  valid := by
    obtain ⟨srv, hfind, hlookup, hvalid⟩ := exists_of_valid h.valid
    rw [rucioIsTokenValid, hs, hlookup]
    exact hvalid
  whole := by
    rw [body_congr hs]
    exact h.whole

/-- **A call keeps what is cached faithful for a user** whose calls it is alike to. -/
theorem faithful_step {calls : List RestCall} (halike : AlikeFor rucio start own calls)
    (hcall : call ∈ calls) (hholder : call.ByHolder rucio start)
    (hs : Faithful rucio start own s) {answer : Answer} (hrun : call.run s = .ok (answer, t)) :
    Faithful rucio start own t := by
  have hlisted := listed_of_run (byHolder_congr hholder hs.servers) hs.remainder hrun
  refine ⟨hlisted.servers.trans hs.servers, hlisted.remainder, fun mine hmine found hfound ↦ ?_⟩
  rcases hlisted.entries mine.query with hsame | ⟨hkey, hnew, hparsed⟩
  · rw [hsame] at hfound
    exact hs.entries mine hmine found hfound
  · obtain rfl : answer = found := Option.some.inj (hnew.symm.trans hfound)
    obtain ⟨hquery, hbody⟩ := halike call hcall mine hmine hkey.symm
    rw [parsed_congr hs.servers] at hparsed
    rw [RestCall.parsed, ← hquery, ← hbody]
    exact hparsed

/-- **A user is told what the server would say**, from the cache or not. -/
theorem parsed_of_run (hmine : call ∈ own) (hholder : call.ByHolder rucio start)
    (hs : Faithful rucio start own s) {answer : Answer} (hrun : call.run s = .ok (answer, t)) :
    call.parsed rucio start = .ok answer := by
  have hlisted := listed_of_run (byHolder_congr hholder hs.servers) hs.remainder hrun
  rcases hlisted.answered with hentry | hparsed
  · exact hs.entries call hmine answer hentry
  · exact (parsed_congr hs.servers).symm.trans hparsed

/-- A call that is told something in one faithful state is told the same in every other one. -/
theorem run_of_faithful (hmine : call ∈ own) (hholder : call.ByHolder rucio start)
    (hs : Faithful rucio start own s) {s' : State} (hs' : Faithful rucio start own s')
    {answer : Answer} (hrun : call.run s = .ok (answer, t)) :
    ∃ t', call.run s' = .ok (answer, t') := by
  have hparsed := parsed_of_run hmine hholder hs hrun
  obtain ⟨⟨answer', t'⟩, hrun'⟩ := exists_run (byHolder_congr hholder hs'.servers) hs'.remainder
    ((parsed_congr hs'.servers).trans hparsed)
  have hsame := (parsed_of_run hmine hholder hs' hrun').symm.trans hparsed
  obtain rfl := Except.ok.inj hsame
  exact ⟨t', hrun'⟩

theorem answers_cons {calls : List RestCall} {answers : List (ℕ × Answer)} :
    s.answers (call :: calls) = some answers ↔
      ∃ answer t rest, call.run s = .ok (answer, t) ∧ t.answers calls = some rest ∧
        (call.caller.uid, answer) :: rest = answers := by
  rw [State.answers]
  rcases call.run s with fault | ⟨answer, t⟩
  · simp [Except.toOption]
  · simp [Except.toOption, Option.bind_eq_some_iff]

/-- **Two faithful states tell a user the same**, the one along all calls and the other along the
user's. -/
theorem answers_agree {calls : List RestCall} (uid : ℕ)
    (hholder : ∀ call ∈ calls, call.ByHolder rucio start)
    (halike : AlikeFor rucio start (callsOf uid calls) calls) :
    ∀ later, (∀ call ∈ later, call ∈ calls) → ∀ s s', Faithful rucio start (callsOf uid calls) s →
      Faithful rucio start (callsOf uid calls) s' → ∀ answers, s.answers later = some answers →
      s'.answers (callsOf uid later) = some (answersTo uid answers) := by
  intro later
  induction later with
  | nil =>
    intro _ s s' _ _ answers h
    obtain rfl := Option.some.inj h
    rfl
  | cons call later ih =>
    intro hsub s s' hs hs' answers h
    obtain ⟨answer, t, rest, hrun, hrest, rfl⟩ := answers_cons.1 h
    have hcall : call ∈ calls := hsub call List.mem_cons_self
    have hsub' : ∀ other ∈ later, other ∈ calls :=
      fun other hother ↦ hsub other (List.mem_cons_of_mem _ hother)
    have ht := faithful_step halike hcall (hholder call hcall) hs hrun
    -- a call of another user happens in the one run only: `faithful_step` says it changes nothing
    -- that this user could be told
    by_cases huid : call.caller.uid = uid
    · have hmine : call ∈ callsOf uid calls := List.mem_filter.2 ⟨hcall, by simpa using huid⟩
      obtain ⟨t', hrun'⟩ := run_of_faithful hmine (hholder call hcall) hs hs' hrun
      have ht' := faithful_step halike hcall (hholder call hcall) hs' hrun'
      have hkeep : callsOf uid (call :: later) = call :: callsOf uid later :=
        List.filter_cons_of_pos (by simpa using huid)
      rw [hkeep]
      refine answers_cons.2 ⟨answer, t', answersTo uid rest, hrun', ?_, ?_⟩
      · exact ih hsub' t t' ht ht' rest hrest
      · exact (List.filter_cons_of_pos (by simpa using huid)).symm
    · have hdrop : callsOf uid (call :: later) = callsOf uid later :=
        List.filter_cons_of_neg (by simpa using huid)
      have hdropAnswer : answersTo uid ((call.caller.uid, answer) :: rest) = answersTo uid rest :=
        List.filter_cons_of_neg (by simpa using huid)
      rw [hdrop, hdropAnswer]
      exact ih hsub' t s' ht hs' rest hrest

end Runs

/-- **A user cannot tell whether the others are there.** In a run of listing calls by holders of
valid tokens that starts with empty caches, the answers to a user are those of the run without the
calls of the others, provided that every call with the cache key of one of the user's calls is the
same call and is answered alike by the server. -/
theorem listings_agree_without_others {rucio : RucioAnswers} {servers : ServerMap}
    {serverNames : List Str} {calls : List RestCall} {answers : List (ℕ × Answer)} (uid : ℕ)
    (hholder : ∀ call ∈ calls, call.ByHolder rucio (State.start servers serverNames))
    (halike : AlikeFor rucio (State.start servers serverNames) (callsOf uid calls) calls)
    (h : (State.start servers serverNames).answers calls = some answers) :
    (State.start servers serverNames).answers (callsOf uid calls) =
      some (answersTo uid answers) := by
  have hstart : Faithful rucio (State.start servers serverNames) (callsOf uid calls)
      (State.start servers serverNames) := by
    refine ⟨rfl, rfl, fun call _ answer hentry ↦ ?_⟩
    have hnone : (State.start servers serverNames).entry call.query = none := by
      cases call.query <;> rfl
    exact absurd (hnone.symm.trans hentry) (by simp)
  exact answers_agree uid hholder halike calls (fun _ hcall ↦ hcall) _ _ hstart hstart answers h

/-! ### Two users -/

/-- A registry with the server `s`, for which the users 7 and 8 have tokens. -/
def twoHolders : ServerMap := Table.empty.insert ['s'] {
  rucioConnParams := ⟨['h'], [], [], [], .userpass, []⟩
  rucioTokenInfos := (Table.empty.insert 7 ⟨['t'], {}, 2000000⟩).insert 8 ⟨['u'], {}, 2000000⟩
  configFilePath := []
  tempConfigFolder := [] }

/-- A user lists the scopes of the server. -/
def scopesCall (rucio : RucioAnswers) (uid : ℕ) : RestCall where
  io := { sampleIo with net := fun _ request ↦ rucio request.url request.headers }
  caller := { sampleCaller with uid }
  query := .scopes ['s']

theorem byHolder_scopesCall (rucio : RucioAnswers) {uid : ℕ} (h : uid = 7 ∨ uid = 8) :
    (scopesCall rucio uid).ByHolder rucio (State.start twoHolders [['s']]) where
  asks _ _ := rfl
  listing := trivial
  valid := by
    show (rucioIsTokenValid sampleIo ['s'] uid (State.start twoHolders [['s']])).1 = true
    rcases h with rfl | rfl <;> decide +kernel
  whole := trivial

/-- A server that shows every user one scope. -/
def openRucio : RucioAnswers := fun _ _ ↦ ⟨0, [['[', 'x', ']']]⟩

/-- Both users list the scopes that both may see. -/
theorem listings_agree_without_others_open :
    (State.start twoHolders [['s']]).answers
        (callsOf 8 [scopesCall openRucio 7, scopesCall openRucio 8]) =
      some (answersTo 8 [(7, .scopes [['x']]), (8, .scopes [['x']])]) := by
  refine @listings_agree_without_others openRucio twoHolders [['s']]
    [scopesCall openRucio 7, scopesCall openRucio 8] [(7, .scopes [['x']]), (8, .scopes [['x']])] 8
    ?_ ?_ (by decide +kernel)
  · intro call hcall
    rcases List.mem_pair.1 hcall with rfl | rfl
    · exact byHolder_scopesCall openRucio (Or.inl rfl)
    · exact byHolder_scopesCall openRucio (Or.inr rfl)
  · intro call hcall mine hmine _
    have hmine' := List.mem_of_mem_filter hmine
    rcases List.mem_pair.1 hcall with rfl | rfl <;> rcases List.mem_pair.1 hmine' with rfl | rfl <;>
      exact ⟨rfl, rfl⟩

/-- A server that shows the holder of the token `t` the scope `x` and everybody else the scope
`y`. -/
def privateRucio : RucioAnswers := fun _ headers ↦
  ⟨0, [if headers = [tokenHeader ['t']] then ['[', 'x', ']'] else ['[', 'y', ']']]⟩

/-- The user 8 lists the scopes after the user 7 and is served the scope `x`, which the server shows
to the user 7 only. Without the call of the user 7 it is the scope `y`. -/
theorem listing_of_another_user :
    (∀ call ∈ [scopesCall privateRucio 7, scopesCall privateRucio 8],
        call.ByHolder privateRucio (State.start twoHolders [['s']])) ∧
      (State.start twoHolders [['s']]).answers
          [scopesCall privateRucio 7, scopesCall privateRucio 8] =
        some [(7, .scopes [['x']]), (8, .scopes [['x']])] ∧
      (State.start twoHolders [['s']]).answers
          (callsOf 8 [scopesCall privateRucio 7, scopesCall privateRucio 8]) =
        some [(8, .scopes [['y']])] := by
  refine ⟨fun call hcall ↦ ?_, by decide +kernel, by decide +kernel⟩
  rcases List.mem_pair.1 hcall with rfl | rfl
  · exact byHolder_scopesCall privateRucio (Or.inl rfl)
  · exact byHolder_scopesCall privateRucio (Or.inr rfl)

end FusePosix
