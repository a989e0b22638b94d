import FusePosix.Rest.Kept
import FusePosix.Rest.Sharing

/-!
# Exchanges

Every function of the REST client that asks a server does so in the same way: it makes the headers,
which may ask for a token, sends one request for data, and goes on with the answer. `Exchanged` says
how this can end: the server is not loaded, libcurl reports an error, or there is a payload. What a
listing or a lookup does is then stated once for each of them, in terms of how its exchange ended.

The log tells afterwards what the last answer of a call was (`lastAnswer`), so that statements about
failed and successful exchanges need not look into the functions. And from how the calls go it
follows that they keep whatever their steps keep (`kept_rucioListScopes` and its companions).

An exchange begins one request. When libcurl follows a redirect, the answer is that of the last
place it was sent to, and that is the one answer an exchange goes on with; the requests in between
are in `Io.redirects` (`FusePosix.Rest.State`) and not in the log.

**Not claimed:** that an answer is one of the server. An exchange is `answered` when libcurl reports
no error, and the source looks no further: the status of the response and the kind of its content
play no part, so the page of a proxy is parsed like a list of scopes.
-/

namespace FusePosix

/-! ### The last answer of a call -/

/-- The answer to the latest request of a log, not counting its first `older` events. -/
def answerSince (io : Io) (older : ℕ) : List Event → Option CurlRet
  | [] => none
  | .sent request :: log => if log.length < older then none else some (io.net log request)
  | .stored _ _ _ :: log => if log.length < older then none else answerSince io older log
  | .used _ _ _ :: log => if log.length < older then none else answerSince io older log

/-- The answer to the last request that was sent between two states. -/
def lastAnswer (io : Io) (s t : State) : Option CurlRet := answerSince io s.log.length t.log

section LastAnswer

variable {io : Io} {s t : State}

/-- Nothing has been answered since now. -/
theorem answerSince_self (io : Io) (log : List Event) : answerSince io log.length log = none := by
  rcases log with - | ⟨event, log⟩
  · rfl
  · cases event <;> exact if_pos (Nat.lt_succ_self _)

/-- Without a request there is no answer. -/
theorem lastAnswer_of_log_eq (h : t.log = s.log) : lastAnswer io s t = none := by
  rw [lastAnswer, h, answerSince_self]

/-- Using an entry of a cache asks nobody. -/
theorem lastAnswer_note_used (cache : CacheName) (entity : Entity) (key : Str) :
    lastAnswer io s (s.note (.used cache entity key)) = none := by
  show (if s.log.length < s.log.length then none else answerSince io s.log.length s.log) = none
  rw [answerSince_self, ite_self]

/-- A request that has just been sent has the last answer. -/
theorem lastAnswer_note_sent (h : s.log <:+ t.log) (request : Request) :
    lastAnswer io s (t.note (.sent request)) = some (io.net t.log request) :=
  if_neg (Nat.not_lt.2 h.length_le)

/-- Storing an entry does not change what the last answer was. -/
theorem answerSince_stored {older : ℕ} {log : List Event} (h : older ≤ log.length)
    (cache : CacheName) (entity : Entity) (key : Str) :
    answerSince io older (.stored cache entity key :: log) = answerSince io older log :=
  if_neg (Nat.not_lt.2 h)

/-- So the answer that a listing is made of is still the last one when the listing has been stored.
-/
theorem lastAnswer_of_stores {u : State} {cache : CacheName} {entity : Entity} {key : Str}
    (h : s.log <:+ t.log) (hstores : Stores t u cache entity key) :
    lastAnswer io s u = lastAnswer io s t := by
  rw [lastAnswer, hstores.log, answerSince_stored h.length_le, lastAnswer]

/-- Noting what a listing says about its DIDs does not change it either. -/
theorem lastAnswer_primeLookups (server scope : Str) (dids : List RucioDid) : ∀ {t : State},
    s.log <:+ t.log → lastAnswer io s (t.primeLookups server scope dids) = lastAnswer io s t ∧
      s.log <:+ (t.primeLookups server scope dids).log := by
  induction dids with
  | nil => exact fun h ↦ ⟨rfl, h⟩
  | cons did dids ih =>
    intro t h
    -- each record is two more events, and none of them is a request
    have hlonger : s.log <:+ (t.primeLookup server scope did).log :=
      h.trans ((List.suffix_cons _ _).trans (List.suffix_cons _ _))
    obtain ⟨hanswer, hsuffix⟩ := ih hlonger
    refine ⟨hanswer.trans ?_, hsuffix⟩
    show answerSince io s.log.length (.stored _ _ _ :: .stored _ _ _ :: t.log) = _
    rw [answerSince_stored (Nat.le_succ_of_le h.length_le), answerSince_stored h.length_le,
      lastAnswer]

/-- What is quiet only adds to the log. -/
theorem Quiet.log_suffix (h : Quiet s t) : s.log <:+ t.log := by
  obtain ⟨requests, hlog⟩ := h.log
  rw [hlog]
  exact List.suffix_append _ _

end LastAnswer

/-! ### How an exchange ends -/

/-- A request for data has been put together, with headers that were made in state `s`. -/
structure Asked (io : Io) (server resource : Str) (caller : Caller) (s : State)
    (request : Request) (s₁ : State) : Prop where
  headers : ∃ fields, getAuthHeaders io server caller s = .ok (some fields, s₁) ∧
    ∃ params, getServerParams s.servers server = some params ∧
      request = (dataRequest params resource fields).asSent

/-- How an exchange ends: with a payload, or with nothing. -/
inductive Exchanged (io : Io) (server resource : Str) (caller : Caller) (s : State) :
    Option (List Str) → State → Prop
  /-- There are no headers for a server that is not loaded. -/
  | unloaded (hserver : getServerParams s.servers server = none) :
      Exchanged io server resource caller s none s
  /-- libcurl reports an error. -/
  | failed {request : Request} {s₁ : State} (hasked : Asked io server resource caller s request s₁)
      (hok : (io.net s₁.log request).ok = false) :
      Exchanged io server resource caller s none (s₁.note (.sent request))
  /-- There is an answer. -/
  | answered {request : Request} {s₁ : State}
      (hasked : Asked io server resource caller s request s₁)
      (hok : (io.net s₁.log request).ok = true) :
      Exchanged io server resource caller s (some (io.net s₁.log request).payload)
        (s₁.note (.sent request))

section Exchanged

variable {io : Io} {server resource scope : Str} {caller : Caller} {s t s₁ : State}
  {payload : Option (List Str)} {request : Request}

/-- The connection parameters are among the settings. -/
theorem SameSettings.getServerParams {servers servers' : ServerMap}
    (h : SameSettings servers servers') (name : Str) :
    getServerParams servers' name = getServerParams servers name := by
  have hfst := congrArg (Option.map Prod.fst) (h name)
  rwa [Option.map_map, Option.map_map] at hfst

/-- There are headers exactly for a loaded server. -/
theorem getAuthHeaders_eq_ok {headers : Option (List Str)}
    (h : getAuthHeaders io server caller s = .ok (headers, t)) :
    (headers = none ∧ getServerParams s.servers server = none ∧ t = s) ∨
      ∃ fields params, headers = some fields ∧ getServerParams s.servers server = some params := by
  rcases hfind : s.servers.find server with - | srv
  · have hparams := getServerParams_eq_none hfind
    rw [getAuthHeaders, hparams] at h
    obtain ⟨rfl, rfl⟩ := Prod.mk.inj (Except.ok.inj h)
    exact Or.inl ⟨rfl, hparams, rfl⟩
  · have hparams := getServerParams_of_find hfind
    rw [getAuthHeaders, hparams, getServerToken_of_find hfind] at h
    simp only at h
    -- the headers are made whether a login has brought a token or not
    split_ifs at h with hvalid
    all_goals
      obtain ⟨u, -, hret⟩ := bind_eq_ok.1 h
      obtain ⟨rfl, rfl⟩ := Prod.mk.inj (Except.ok.inj hret)
      exact Or.inr ⟨_, _, rfl, hparams⟩

/-- A request is put together quietly, even if a token is asked for on the way. -/
theorem Asked.quiet (h : Asked io server resource caller s request s₁) : Quiet s s₁ := by
  obtain ⟨fields, hheaders, -⟩ := h.headers
  exact quiet_getAuthHeaders hheaders

/-- A request that is sent is recorded, and nothing else changes. -/
theorem quiet_note_sent (request : Request) (s : State) : Quiet s (s.note (.sent request)) :=
  ⟨sameSettings_refl _, rfl, rfl, rfl, rfl, rfl, rfl, rfl, [request], rfl⟩

/-- An exchange is quiet. -/
theorem Exchanged.quiet (h : Exchanged io server resource caller s payload t) : Quiet s t := by
  cases h with
  | unloaded => exact quiet_refl s
  | failed hasked => exact hasked.quiet.trans (quiet_note_sent _ _)
  | answered hasked => exact hasked.quiet.trans (quiet_note_sent _ _)

/-- **The log tells how an exchange ended.** -/
theorem Exchanged.payload_eq (h : Exchanged io server resource caller s payload t) :
    payload = (lastAnswer io s t).bind fun ret ↦ if ret.ok then some ret.payload else none := by
  cases h with
  | unloaded => rw [lastAnswer_of_log_eq rfl, Option.bind_none]
  | failed hasked hok =>
    rw [lastAnswer_note_sent hasked.quiet.log_suffix, Option.bind_some, hok]
    rfl
  | answered hasked hok =>
    rw [lastAnswer_note_sent hasked.quiet.log_suffix, Option.bind_some, hok]
    rfl

/-- What becomes of a request for data. -/
theorem Asked.exchanged (h : Asked io server resource caller s request s₁) :
    Exchanged io server resource caller s
      (if (io.net s₁.log request).ok then some (io.net s₁.log request).payload else none)
      (s₁.note (.sent request)) := by
  by_cases hok : (io.net s₁.log request).ok = true
  · rw [if_pos hok]
    exact .answered h hok
  · rw [if_neg hok]
    exact .failed h (by simpa using hok)

/-! ### Where exchanges take place -/

/-- The record of one DID that is fetched. -/
theorem fetchDid_eq_ok {name : Str}
    (h : fetchDid io server scope name caller s = .ok (payload, t)) :
    Exchanged io server ("/dids/".toList ++ scope ++ ['/'] ++ name) caller s payload t := by
  obtain ⟨⟨headers, s₁⟩, hheaders, hrun⟩ := bind_eq_ok.1 h
  rcases getAuthHeaders_eq_ok hheaders with ⟨rfl, hserver, rfl⟩ | ⟨fields, params, rfl, hparams⟩
  · obtain ⟨rfl, rfl⟩ := Prod.mk.inj (Except.ok.inj hrun)
    exact .unloaded hserver
  · have hasked : Asked io server ("/dids/".toList ++ scope ++ ['/'] ++ name) caller s
        (dataRequest params ("/dids/".toList ++ scope ++ ['/'] ++ name) fields).asSent s₁ :=
      ⟨fields, hheaders, params, hparams, rfl⟩
    simp only [hparams, deref_some, ok_bind, safeGET_eq, curlGET_eq] at hrun
    obtain ⟨rfl, rfl⟩ := Prod.mk.inj (Except.ok.inj hrun)
    exact hasked.exchanged

/-- A scope listing that is fetched. -/
theorem fetchScopes_eq_ok {scopes : List Str}
    (h : fetchScopes io server caller s = .ok (scopes, t)) :
    ∃ payload s₁, Exchanged io server "/scopes/".toList caller s payload s₁ ∧
      ((payload = none ∧ scopes = [] ∧ t = s₁) ∨
        ∃ chunks, payload = some chunks ∧ tokenizeAll chunks [] = .ok scopes ∧
          t = s₁.setScopes server (io.now + chacheDuration, scopes)) := by
  obtain ⟨⟨headers, s₁⟩, hheaders, hrun⟩ := bind_eq_ok.1 h
  have hquiet := quiet_getAuthHeaders hheaders
  rcases getAuthHeaders_eq_ok hheaders with ⟨rfl, hserver, rfl⟩ | ⟨fields, params, rfl, hparams⟩
  · obtain ⟨rfl, rfl⟩ := Prod.mk.inj (Except.ok.inj hrun)
    exact ⟨none, _, .unloaded hserver, Or.inl ⟨rfl, rfl, rfl⟩⟩
  · have hasked : Asked io server "/scopes/".toList caller s
        (dataRequest params "/scopes/".toList fields).asSent s₁ :=
      ⟨fields, hheaders, params, hparams, rfl⟩
    -- the parameters are read again behind the headers, and are still the same
    have hparams' : getServerParams s₁.servers server = some params :=
      (hquiet.settings.getServerParams server).trans hparams
    simp only [hparams', safeGET_eq, curlGET_eq] at hrun
    rcases hok : (io.net s₁.log (dataRequest params "/scopes/".toList fields).asSent).ok
    · simp only [hok, Bool.not_false, ↓reduceIte] at hrun
      obtain ⟨rfl, rfl⟩ := Prod.mk.inj (Except.ok.inj hrun)
      exact ⟨none, _, .failed hasked hok, Or.inl ⟨rfl, rfl, rfl⟩⟩
    · simp only [hok, Bool.not_true, Bool.false_eq_true, ↓reduceIte] at hrun
      obtain ⟨scopes', hscopes, hret⟩ := bind_eq_ok.1 hrun
      obtain ⟨rfl, rfl⟩ := Prod.mk.inj (Except.ok.inj hret)
      exact ⟨_, _, .answered hasked hok, Or.inr ⟨_, rfl, hscopes, rfl⟩⟩

/-- A DID listing that is fetched. -/
theorem fetchDids_eq_ok {dids : List RucioDid}
    {structurize : Str → Str → List RucioDid → Except Fault (Str × List RucioDid)}
    {store : State → ℤ × List RucioDid → State}
    (h : fetchDids io server scope resource caller structurize store s = .ok (dids, t)) :
    ∃ payload s₁, Exchanged io server resource caller s payload s₁ ∧
      ((payload = none ∧ dids = [] ∧ t = s₁) ∨
        ∃ chunks remainder, payload = some chunks ∧
          structurizeAll structurize s₁.didStringRemainder chunks [] = .ok (remainder, dids) ∧
          t = store ({ s₁ with didStringRemainder := remainder }.primeLookups server scope dids)
            (io.now + chacheDuration, dids)) := by
  obtain ⟨⟨headers, s₁⟩, hheaders, hrun⟩ := bind_eq_ok.1 h
  rcases getAuthHeaders_eq_ok hheaders with ⟨rfl, hserver, rfl⟩ | ⟨fields, params, rfl, hparams⟩
  · obtain ⟨rfl, rfl⟩ := Prod.mk.inj (Except.ok.inj hrun)
    exact ⟨none, _, .unloaded hserver, Or.inl ⟨rfl, rfl, rfl⟩⟩
  · have hasked : Asked io server resource caller s
        (dataRequest params resource fields).asSent s₁ :=
      ⟨fields, hheaders, params, hparams, rfl⟩
    simp only [hparams, deref_some, ok_bind, safeGET_eq, curlGET_eq] at hrun
    -- without an answer nothing is parsed, and nothing is stored
    rcases hok : (io.net s₁.log (dataRequest params resource fields).asSent).ok
    · simp only [hok, Bool.not_false, ↓reduceIte] at hrun
      obtain ⟨rfl, rfl⟩ := Prod.mk.inj (Except.ok.inj hrun)
      exact ⟨none, _, .failed hasked hok, Or.inl ⟨rfl, rfl, rfl⟩⟩
    · simp only [hok, Bool.not_true, Bool.false_eq_true, ↓reduceIte] at hrun
      obtain ⟨⟨dids', s₂⟩, hparse, hret⟩ := bind_eq_ok.1 hrun
      obtain ⟨⟨remainder, dids''⟩, hstructurize, hs₂⟩ := bind_eq_ok.1 hparse
      obtain ⟨rfl, rfl⟩ := Prod.mk.inj (Except.ok.inj hs₂)
      obtain ⟨rfl, rfl⟩ := Prod.mk.inj (Except.ok.inj hret)
      exact ⟨_, _, .answered hasked hok, Or.inr ⟨_, remainder, rfl, hstructurize, rfl⟩⟩

/-! ### Listings -/

/-- The names a listing is about. -/
def Query.entity : Query → Entity
  | .scopes server => [server]
  | .dids server scope => [server, scope]
  | .containerDids server scope name => [server, scope, name]
  | .isContainer _ | .size _ => []

/-- The listing that stands for no answer. -/
def Query.nothing : Query → Answer
  | .scopes _ => .scopes []
  | _ => .dids []

/-- What a listing makes of the chunks of an answer, with a remainder in front of them. -/
def Query.parseChunks (remainder : Str) (chunks : List Str) : Query → Except Fault (Str × Answer)
  | .scopes _ => do return (remainder, .scopes (← tokenizeAll chunks []))
  | .dids _ _ => do
    let parsed ← structurizeAll structurizeDid remainder chunks []
    return (parsed.1, .dids parsed.2)
  | .containerDids _ _ _ => do
    let parsed ← structurizeAll structurizeContainerDid remainder chunks []
    return (parsed.1, .dids parsed.2)
  | _ => .error .undefined

/-- How a listing goes: there is an entry that may be used, the exchange brings nothing, or it
brings an answer, which is parsed and stored. -/
inductive Lists (io : Io) (caller : Caller) (query : Query) (s : State) : Answer → State → Prop
  | used {expiry : ℤ} {answer : Answer} (hentry : s.expiring query = some (expiry, answer))
      (hfresh : io.now ≤ expiry) :
      Lists io caller query s answer
        (s.note (.used query.cacheAndKey.1 query.entity query.cacheAndKey.2))
  | nothing {s₁ : State} (hstale : ∀ entry, s.expiring query = some entry → entry.1 < io.now)
      (hexchanged : Exchanged io query.server query.resource caller s none s₁) :
      Lists io caller query s query.nothing s₁
  | fetched {chunks : List Str} {remainder : Str} {answer : Answer} {s₁ t : State}
      (hstale : ∀ entry, s.expiring query = some entry → entry.1 < io.now)
      (hexchanged : Exchanged io query.server query.resource caller s (some chunks) s₁)
      (hparse : query.parseChunks s₁.didStringRemainder chunks = .ok (remainder, answer))
      (hremainder : t.didStringRemainder = remainder)
      (hstored : ∀ other, t.expiring other = if other.cacheAndKey = query.cacheAndKey then
        some (io.now + chacheDuration, answer) else s.expiring other)
      (hanswer : lastAnswer io s t = lastAnswer io s s₁) :
      Lists io caller query s answer t

/-- A stale entry of a cache. -/
theorem stale_of_find {α : Type} {found : Option (ℤ × α)} {answer : α → Answer} {now : ℤ}
    (h : ∀ entry, found = some entry → entry.1 < now) :
    ∀ entry, found.map (fun entry ↦ (entry.1, answer entry.2)) = some entry → entry.1 < now := by
  rintro entry hentry
  obtain ⟨found', hfound, rfl⟩ := Option.map_eq_some_iff.1 hentry
  exact h found' hfound

/-- The listings are those of the three caches. -/
theorem expiring_eq_of_caches (hscopes : t.scopesCache = s.scopesCache)
    (hdids : t.didsCache = s.didsCache)
    (hcontainerDids : t.containerDidsCache = s.containerDidsCache) :
    t.expiring = s.expiring := by
  funext query
  cases query with
  | scopes => rw [State.expiring, hscopes, State.expiring]
  | dids => rw [State.expiring, hdids, State.expiring]
  | containerDids => rw [State.expiring, hcontainerDids, State.expiring]
  | isContainer | size => rfl

/-- What is quiet leaves the listings alone, -/
theorem Quiet.expiring (h : Quiet s t) : t.expiring = s.expiring :=
  expiring_eq_of_caches h.scopes h.dids h.containerDids

/-- and so does an exchange, which stores nothing by itself. -/
theorem Exchanged.expiring (h : Exchanged io server resource caller s payload t) :
    t.expiring = s.expiring :=
  h.quiet.expiring

/-- How a DID listing is stored: under its own key, as one more event. -/
structure StoresListing (query : Query) (store : State → ℤ × List RucioDid → State) : Prop where
  remainder : ∀ s entry, (store s entry).didStringRemainder = s.didStringRemainder
  stores : ∀ s entry, ∃ cache entity key, Stores s (store s entry) cache entity key
  expiring : ∀ s entry other, (store s entry).expiring other =
    if other.cacheAndKey = query.cacheAndKey then some (entry.1, .dids entry.2)
    else s.expiring other

/-- The content of a scope is stored in this way, -/
theorem storesListing_setDids (server scope : Str) :
    StoresListing (.dids server scope) fun s entry ↦ s.setDids [server, scope] entry :=
  ⟨fun _ _ ↦ rfl, fun _ entry ↦ ⟨_, _, _, stores_setDids entry⟩,
    fun _ entry other ↦ expiring_setDids server scope entry other⟩

/-- and so is that of a container. -/
theorem storesListing_setContainerDids (server scope name : Str) :
    StoresListing (.containerDids server scope name) fun s entry ↦
      s.setContainerDids [server, scope, name] entry :=
  ⟨fun _ _ ↦ rfl, fun _ entry ↦ ⟨_, _, _, stores_setContainerDids entry⟩,
    fun _ entry other ↦ expiring_setContainerDids server scope name entry other⟩

/-- A listing of DIDs that has to be fetched goes like a listing. -/
theorem lists_of_fetchDids {query : Query} {dids : List RucioDid}
    {structurize : Str → Str → List RucioDid → Except Fault (Str × List RucioDid)}
    {store : State → ℤ × List RucioDid → State} (hstore : StoresListing query store)
    (hparse : ∀ remainder chunks, query.parseChunks remainder chunks = do
      let parsed ← structurizeAll structurize remainder chunks []
      return (parsed.1, .dids parsed.2))
    (hnothing : query.nothing = .dids [])
    (hstale : ∀ entry, s.expiring query = some entry → entry.1 < io.now)
    (h : fetchDids io query.server scope query.resource caller structurize store s =
      .ok (dids, t)) :
    Lists io caller query s (.dids dids) t := by
  obtain ⟨payload, s₁, hexchanged, ⟨rfl, rfl, rfl⟩ | ⟨chunks, remainder, rfl, hparsed, rfl⟩⟩ :=
    fetchDids_eq_ok h
  · exact hnothing ▸ .nothing hstale hexchanged
  -- the lookups are told first; neither the remainder nor the listings change by that
  · obtain ⟨-, hremainder, hexpiring⟩ := primeLookups_frame query.server scope dids
      { s₁ with didStringRemainder := remainder }
    have hsuffix : s.log <:+ ({ s₁ with didStringRemainder := remainder } : State).log :=
      hexchanged.quiet.log_suffix
    obtain ⟨hanswer, hsuffix'⟩ := @lastAnswer_primeLookups io s query.server scope dids _ hsuffix
    obtain ⟨cache, entity, key, hstores⟩ := hstore.stores
      (({ s₁ with didStringRemainder := remainder } : State).primeLookups query.server scope dids)
      (io.now + chacheDuration, dids)
    refine .fetched hstale hexchanged ?_ ((hstore.remainder _ _).trans hremainder) (fun other ↦ ?_)
      ((lastAnswer_of_stores hsuffix' hstores).trans hanswer)
    · rw [hparse, hparsed]
      rfl
    · rw [hstore.expiring, hexpiring, ← hexchanged.expiring]
      cases other <;> rfl

/-- **How a listing call goes.** -/
theorem lists_of_run {call : RestCall} {answer : Answer} (hlisting : call.query.IsListing)
    (h : call.run s = .ok (answer, t)) : Lists call.io call.caller call.query s answer t := by
  obtain ⟨io, caller, query⟩ := call
  -- three listings, each of which looks into its cache first
  cases RestCall.runs_of_eq_ok h with
  | @scopes server _ _ hcall =>
    rcases rucioListScopes_eq_ok hcall with ⟨hfetch, hstale⟩ | ⟨expiry, hfound, hfresh, rfl⟩
    · obtain ⟨payload, s₁, hexchanged, ⟨rfl, rfl, rfl⟩ | ⟨chunks, rfl, hparsed, rfl⟩⟩ :=
        fetchScopes_eq_ok hfetch
      · exact .nothing (stale_of_find hstale) hexchanged
      · refine .fetched (stale_of_find hstale) hexchanged ?_ rfl (fun other ↦ ?_)
          (lastAnswer_of_stores hexchanged.quiet.log_suffix (stores_setScopes server _))
        · show (tokenizeAll chunks [] >>= fun scopes ↦ _) = _
          rw [hparsed]
          rfl
        · rw [expiring_setScopes, hexchanged.expiring]
          rfl
    · refine .used ?_ hfresh
      show (s.scopesCache.find server).map _ = _
      rw [hfound, Option.map_some]
  | @dids server scope _ _ hcall =>
    rcases rucioListDids_eq_ok hcall with ⟨hfetch, hstale⟩ | ⟨expiry, hfound, hfresh, rfl⟩
    · exact lists_of_fetchDids (storesListing_setDids server scope) (fun _ _ ↦ rfl) rfl
        (stale_of_find hstale) hfetch
    · refine .used ?_ hfresh
      show (s.didsCache.find _).map _ = _
      rw [hfound, Option.map_some]
  | @containerDids server scope name _ _ hcall =>
    rcases rucioListContainerDids_eq_ok hcall with ⟨hfetch, hstale⟩ | ⟨expiry, hfound, hfresh, rfl⟩
    · exact lists_of_fetchDids (storesListing_setContainerDids server scope name)
        (fun _ _ ↦ rfl) rfl (stale_of_find hstale) hfetch
    · refine .used ?_ hfresh
      show (s.containerDidsCache.find _).map _ = _
      rw [hfound, Option.map_some]
  | isContainer => exact absurd hlisting id
  | size => exact absurd hlisting id

/-! ### Lookups of single DIDs -/

/-- The place of the record of a DID, below the address of its server. -/
def didResource (scope name : Str) : Str := "/dids/".toList ++ scope ++ ['/'] ++ name

/-- Whether the record of a DID names one of the two kinds that are directories. -/
def saysContainer (record : Str) : Bool :=
  (Text.find "\"CONTAINER\",".toList record).isSome ||
    (Text.find "\"DATASET\",".toList record).isSome

/-- Whether the record of a DID names the kind of a file. -/
def saysFile (record : Str) : Bool := (Text.find "\"FILE\",".toList record).isSome

/-- A function of the names in a path. -/
theorem exists_entity_of_bind {α : Type} {path : Str} {f : Str → Str → Except Fault α} {a : α}
    (h : (do let scope ← extractScope path; let name ← extractName path; f scope name) = .ok a) :
    ∃ scope name, entityOfPath path = .ok [extractServerName path, scope, name] ∧
      f scope name = .ok a := by
  obtain ⟨scope, hscope, h⟩ := bind_eq_ok.1 h
  obtain ⟨name, hname, h⟩ := bind_eq_ok.1 h
  refine ⟨scope, name, ?_, h⟩
  rw [entityOfPath, hscope, ok_bind, hname, ok_bind, pure_eq_ok]

/-- The first chunk of a payload is read only if there is one. -/
theorem deref_head?_eq_ok {payload : List Str} {front : Str} (h : deref payload.head? = .ok front) :
    ∃ rest, payload = front :: rest := by
  rcases payload with - | ⟨first, rest⟩
  · cases h
  · exact ⟨rest, by rw [← Except.ok.inj h]⟩

/-- **How the question goes whether a path is a container.** There is an entry, or the exchange
brings nothing, or the first chunk of the record decides. What is stored then stands under the path,
and what is looked for stands under the key of the names. -/
theorem rucioIsContainer_eq_ok {path : Str} {value : Bool}
    (h : rucioIsContainer io path caller s = .ok (value, t)) :
    ∃ scope name, entityOfPath path = .ok [extractServerName path, scope, name] ∧
      ((∃ found,
          s.isContainerCache.find (cacheKey [extractServerName path, scope, name]) = some found ∧
          value = io.readBool found ∧
          t = s.note (.used .isContainer [extractServerName path, scope, name]
            (cacheKey [extractServerName path, scope, name]))) ∨
        s.isContainerCache.find (cacheKey [extractServerName path, scope, name]) = none ∧
          ∃ payload s₁, Exchanged io (extractServerName path) (didResource scope name) caller s
              payload s₁ ∧
            ((payload = none ∧ value = false ∧ t = s₁) ∨
              ∃ front rest, payload = some (front :: rest) ∧ value = saysContainer front ∧
                t = s₁.setIsContainer [extractServerName path, scope, name] path value)) := by
  obtain ⟨scope, name, hentity, hrun⟩ := exists_entity_of_bind h
  refine ⟨scope, name, hentity, ?_⟩
  simp only at hrun
  split at hrun
  · rename_i found hfound
    obtain ⟨rfl, rfl⟩ := Prod.mk.inj (Except.ok.inj hrun)
    exact Or.inl ⟨found, hfound, rfl, rfl⟩
  · rename_i hnone
    obtain ⟨⟨payload, s₁⟩, hfetch, hrest⟩ := bind_eq_ok.1 hrun
    refine Or.inr ⟨hnone, payload, s₁, fetchDid_eq_ok hfetch, ?_⟩
    -- an answer without a chunk would be read out of bounds, so there is one
    rcases payload with - | payload
    · obtain ⟨rfl, rfl⟩ := Prod.mk.inj (Except.ok.inj hrest)
      exact Or.inl ⟨rfl, rfl, rfl⟩
    · obtain ⟨front, hfront, hret⟩ := bind_eq_ok.1 hrest
      obtain ⟨rest, rfl⟩ := deref_head?_eq_ok hfront
      obtain ⟨rfl, rfl⟩ := Prod.mk.inj (Except.ok.inj hret)
      exact Or.inr ⟨front, rest, rfl, rfl, rfl⟩

/-- **How the question goes whether a path is a file**, which is the same but for the words in the
record. -/
theorem rucioIsFile_eq_ok {path : Str} {value : Bool}
    (h : rucioIsFile io path caller s = .ok (value, t)) :
    ∃ scope name, entityOfPath path = .ok [extractServerName path, scope, name] ∧
      ((s.isFileCache.find (cacheKey [extractServerName path, scope, name]) = some value ∧
          t = s.note (.used .isFile [extractServerName path, scope, name]
            (cacheKey [extractServerName path, scope, name]))) ∨
        s.isFileCache.find (cacheKey [extractServerName path, scope, name]) = none ∧
          ∃ payload s₁, Exchanged io (extractServerName path) (didResource scope name) caller s
              payload s₁ ∧
            ((payload = none ∧ value = false ∧ t = s₁) ∨
              ∃ front rest, payload = some (front :: rest) ∧ value = saysFile front ∧
                t = s₁.setIsFile [extractServerName path, scope, name] path value)) := by
  obtain ⟨scope, name, hentity, hrun⟩ := exists_entity_of_bind h
  refine ⟨scope, name, hentity, ?_⟩
  simp only at hrun
  split at hrun
  · rename_i found hfound
    obtain ⟨rfl, rfl⟩ := Prod.mk.inj (Except.ok.inj hrun)
    exact Or.inl ⟨hfound, rfl⟩
  · rename_i hnone
    obtain ⟨⟨payload, s₁⟩, hfetch, hrest⟩ := bind_eq_ok.1 hrun
    refine Or.inr ⟨hnone, payload, s₁, fetchDid_eq_ok hfetch, ?_⟩
    rcases payload with - | payload
    · obtain ⟨rfl, rfl⟩ := Prod.mk.inj (Except.ok.inj hrest)
      exact Or.inl ⟨rfl, rfl, rfl⟩
    · obtain ⟨front, hfront, hret⟩ := bind_eq_ok.1 hrest
      obtain ⟨rest, rfl⟩ := deref_head?_eq_ok hfront
      obtain ⟨rfl, rfl⟩ := Prod.mk.inj (Except.ok.inj hret)
      exact Or.inr ⟨front, rest, rfl, rfl, rfl⟩

/-- **How the question goes how long a file is.** Without an answer it is 0, without a size in the
answer it is −1, and only a size that has been read is stored, under the key of the names. -/
theorem rucioGetSize_eq_ok {path : Str} {size : ℤ}
    (h : rucioGetSize io path caller s = .ok (size, t)) :
    ∃ scope name, entityOfPath path = .ok [extractServerName path, scope, name] ∧
      ((∃ found,
          s.fileSizeCache.find (cacheKey [extractServerName path, scope, name]) = some found ∧
          size = io.readInt found ∧
          t = s.note (.used .fileSize [extractServerName path, scope, name]
            (cacheKey [extractServerName path, scope, name]))) ∨
        s.fileSizeCache.find (cacheKey [extractServerName path, scope, name]) = none ∧
          ∃ payload s₁, Exchanged io (extractServerName path) (didResource scope name) caller s
              payload s₁ ∧
            ((payload = none ∧ size = 0 ∧ t = s₁) ∨
              (∃ chunks, payload = some chunks ∧ sizeOfPayload chunks = none ∧ size = -1 ∧ t = s₁) ∨
              ∃ chunks, payload = some chunks ∧ sizeOfPayload chunks = some size ∧
                t = s₁.emplaceSize [extractServerName path, scope, name] size)) := by
  obtain ⟨scope, name, hentity, hrun⟩ := exists_entity_of_bind h
  refine ⟨scope, name, hentity, ?_⟩
  simp only at hrun
  split at hrun
  · rename_i found hfound
    obtain ⟨rfl, rfl⟩ := Prod.mk.inj (Except.ok.inj hrun)
    exact Or.inl ⟨found, hfound, rfl, rfl⟩
  · rename_i hnone
    obtain ⟨⟨payload, s₁⟩, hfetch, hrest⟩ := bind_eq_ok.1 hrun
    refine Or.inr ⟨hnone, payload, s₁, fetchDid_eq_ok hfetch, ?_⟩
    rcases payload with - | chunks
    · obtain ⟨rfl, rfl⟩ := Prod.mk.inj (Except.ok.inj hrest)
      exact Or.inl ⟨rfl, rfl, rfl⟩
    · simp only at hrest
      split at hrest
      · rename_i hsize
        obtain ⟨rfl, rfl⟩ := Prod.mk.inj (Except.ok.inj hrest)
        exact Or.inr (Or.inl ⟨chunks, rfl, hsize, rfl, rfl⟩)
      · rename_i found hsize
        obtain ⟨rfl, rfl⟩ := Prod.mk.inj (Except.ok.inj hrest)
        exact Or.inr (Or.inr ⟨chunks, rfl, hsize, rfl⟩)

/-! ### What a call keeps -/

section Kept

variable {K : CacheName → Entity → Str → Prop} {P : State → Prop}

/-- What is kept by the steps of the client is kept by a listing of scopes, if its key is one of
those that may be stored. -/
theorem kept_rucioListScopes (hP : Kept K P) {scopes : List Str} (hK : K .scopes [server] server)
    (h : P s) (hrun : rucioListScopes io server caller s = .ok (scopes, t)) : P t := by
  rcases rucioListScopes_eq_ok hrun with ⟨hfetch, -⟩ | ⟨expiry, hfound, -, rfl⟩
  · obtain ⟨payload, s₁, hexchanged, hend⟩ := fetchScopes_eq_ok hfetch
    have h₁ : P s₁ := hP.quiet hexchanged.quiet h
    rcases hend with ⟨-, -, rfl⟩ | ⟨chunks, -, -, rfl⟩
    · exact h₁
    · exact hP.stores (stores_setScopes server _) hK h₁
  · exact hP.used (Table.contains_eq_true.2 ⟨_, hfound⟩) hK h

/-- The fetch both DID listings share, whatever they do to store its result. -/
theorem kept_fetchDids (hP : Kept K P) {dids : List RucioDid}
    {structurize : Str → Str → List RucioDid → Except Fault (Str × List RucioDid)}
    {store : State → ℤ × List RucioDid → State}
    (hstore : ∀ u entry, P u → P (store u entry))
    (hK : ListingKeys K server scope dids) (h : P s)
    (hrun : fetchDids io server scope resource caller structurize store s = .ok (dids, t)) :
    P t := by
  obtain ⟨payload, s₁, hexchanged, hend⟩ := fetchDids_eq_ok hrun
  have h₁ : P s₁ := hP.quiet hexchanged.quiet h
  rcases hend with ⟨-, -, rfl⟩ | ⟨chunks, remainder, -, -, rfl⟩
  · exact h₁
  · exact hstore _ _ (kept_primeLookups hP hK (hP.remainder remainder h₁))

/-- It is kept by a listing of a scope, if its own key and those that it tells the lookups about may
be, -/
theorem kept_rucioListDids (hP : Kept K P) {dids : List RucioDid}
    (hown : K .dids [server, scope] (cacheKey [server, scope]))
    (hK : ListingKeys K server scope dids) (h : P s)
    (hrun : rucioListDids io scope server caller s = .ok (dids, t)) : P t := by
  have hstore := fun u entry (hu : P u) ↦ hP.stores (stores_setDids entry) hown hu
  rcases rucioListDids_eq_ok hrun with ⟨hfetch, -⟩ | ⟨expiry, hfound, -, rfl⟩
  · exact kept_fetchDids hP hstore hK h hfetch
  · exact hP.used (Table.contains_eq_true.2 ⟨_, hfound⟩) hown h

/-- by a listing of a container in the same way, -/
theorem kept_rucioListContainerDids (hP : Kept K P) {name : Str} {dids : List RucioDid}
    (hown : K .containerDids [server, scope, name] (cacheKey [server, scope, name]))
    (hK : ListingKeys K server scope dids) (h : P s)
    (hrun : rucioListContainerDids io scope name server caller s = .ok (dids, t)) : P t := by
  have hstore := fun u entry (hu : P u) ↦ hP.stores (stores_setContainerDids entry) hown hu
  rcases rucioListContainerDids_eq_ok hrun with ⟨hfetch, -⟩ | ⟨expiry, hfound, -, rfl⟩
  · exact kept_fetchDids hP hstore hK h hfetch
  · exact hP.used (Table.contains_eq_true.2 ⟨_, hfound⟩) hown h

/-- by the question whether a path is a container, which looks under one key and stores under
another, -/
theorem kept_rucioIsContainer (hP : Kept K P) {path : Str} {value : Bool}
    (hK : ∀ entity, entityOfPath path = .ok entity →
      K .isContainer entity (cacheKey entity) ∧ K .isContainer entity path)
    (h : P s) (hrun : rucioIsContainer io path caller s = .ok (value, t)) : P t := by
  obtain ⟨scope, name, hentity, hend⟩ := rucioIsContainer_eq_ok hrun
  obtain ⟨hown, hpath⟩ := hK _ hentity
  rcases hend with ⟨found, hfound, -, rfl⟩ | ⟨-, payload, s₁, hexchanged, hend⟩
  · exact hP.used (Table.contains_eq_true.2 ⟨found, hfound⟩) hown h
  · have h₁ : P s₁ := hP.quiet hexchanged.quiet h
    rcases hend with ⟨-, -, rfl⟩ | ⟨front, rest, -, -, rfl⟩
    · exact h₁
    · exact hP.stores (stores_isContainer path _) hpath h₁

/-- and by the question for a size. -/
theorem kept_rucioGetSize (hP : Kept K P) {path : Str} {size : ℤ}
    (hK : ∀ entity, entityOfPath path = .ok entity → K .fileSize entity (cacheKey entity))
    (h : P s) (hrun : rucioGetSize io path caller s = .ok (size, t)) : P t := by
  obtain ⟨scope, name, hentity, hend⟩ := rucioGetSize_eq_ok hrun
  have hown := hK _ hentity
  rcases hend with ⟨found, hfound, -, rfl⟩ | ⟨-, payload, s₁, hexchanged, hend⟩
  · exact hP.used (Table.contains_eq_true.2 ⟨found, hfound⟩) hown h
  · have h₁ : P s₁ := hP.quiet hexchanged.quiet h
    rcases hend with ⟨-, -, rfl⟩ | ⟨chunks, -, -, -, rfl⟩ | ⟨chunks, -, -, rfl⟩
    · exact h₁
    · exact h₁
    · exact hP.stores (stores_emplaceSize _) hown h₁

end Kept

end Exchanged

end FusePosix
