import FusePosix.Fuse.Headers

/-!
# The token a data request is sent with

The gate of a callback looks at the token, and so does every function that sends a request for data:
the token may have expired in between. `getAuthHeaders` asks for a new one then. It does not look at
the answer, and takes whatever is stored afterwards for the header. If no new token came, that is
the one it has just found to be invalid.

`auth_headers_valid_iff` is the exact condition under which a header carries a token that is valid
at the time it is sent, for `getAuthHeaders` and for `rucioListScopes`, which has the same steps
written out: the stored token will do, or the server is in one of the two request modes and answers
with a token that will. In the mode `oidc` a token that has expired is always sent.
-/

namespace FusePosix

/-! ### The stored token after asking for a new one -/

section Asking

variable {io : Io} {server : Str} {srv : RucioServer} {caller : Caller} {s : State}

/-- In the request modes, asking for a token is one exchange. -/
theorem requestToken_eq_authResponse
    (hmode : srv.rucioConnParams.rucioAuthMode = .userpass ∨
      srv.rucioConnParams.rucioAuthMode = .x509)
    (hfind : s.servers.find server = some srv) :
    ∃ v, v.servers = s.servers ∧
      requestToken io srv.rucioConnParams.rucioAuthMode server caller s =
        .ok (receiveToken io server caller.uid (authResponse io srv s) v) := by
  have hparams := getServerParams_of_find hfind
  rcases hmode with hmode | hmode
  · refine ⟨s.note (.sent (userpassRequest srv.rucioConnParams).asSent), rfl, ?_⟩
    rw [authResponse, hmode, requestToken, rucioGetAuthTokenUserpass, hparams]
    rfl
  · refine ⟨s.note (.sent (x509Request srv.rucioConnParams (srv.sslBundle io.readFile)).asSent),
      rfl, ?_⟩
    rw [authResponse, hmode, requestToken, rucioGetAuthTokenX509, hparams]
    simp only [getServerSSLBundle_of_find hfind, deref_some, ok_bind]
    rfl

/-- The server is asked for a token by a request, and nobody objects to its answer. -/
def Renews (io : Io) (srv : RucioServer) (s : State) : Prop :=
  (srv.rucioConnParams.rucioAuthMode = .userpass ∨ srv.rucioConnParams.rucioAuthMode = .x509) ∧
    (authResponse io srv s).ok = true ∧ ¬ Refused (authResponse io srv s).payload

/-- **Asking for a token replaces it or leaves it**, in every mode. -/
theorem tokenOf_requestToken (hfind : s.servers.find server = some srv) :
    ∃ result t,
      requestToken io srv.rucioConnParams.rucioAuthMode server caller s = .ok (result, t) ∧
      (Renews io srv s → t.tokenOf server caller.uid =
        (srv.token caller.uid).replaced io (authResponse io srv s).payload) ∧
      (¬ Renews io srv s → t.tokenOf server caller.uid = srv.token caller.uid) := by
  by_cases hmode : srv.rucioConnParams.rucioAuthMode = .userpass ∨
      srv.rucioConnParams.rucioAuthMode = .x509
  · obtain ⟨v, hservers, hrequest⟩ :=
      @requestToken_eq_authResponse io server srv caller s hmode hfind
    have hfindv : v.servers.find server = some srv := hservers ▸ hfind
    rw [hrequest]
    by_cases haccepted : (authResponse io srv s).ok = true ∧
        ¬ Refused (authResponse io srv s).payload
    · rw [receiveToken_accepted hfindv haccepted]
      refine ⟨_, _, rfl, fun _ ↦ ?_, fun h ↦ absurd ⟨hmode, haccepted⟩ h⟩
      exact tokenOf_storeToken_self (@find_lookedUp server srv caller.uid v hfindv) _
    · obtain ⟨result, -, heq⟩ := @exists_receiveToken_rejected io server caller.uid v _ haccepted
      rw [heq]
      exact ⟨result, v, rfl, fun h ↦ absurd h.2 haccepted, fun _ ↦ tokenOf_of_find hfindv⟩
  · have hnone : ¬ Renews io srv s := fun h ↦ hmode h.1
    rcases hmode' : srv.rucioConnParams.rucioAuthMode with - | - | - | -
    · exact absurd (Or.inl hmode') hmode
    · exact absurd (Or.inr hmode') hmode
    · refine ⟨_, _, rucioGetAuthTokenOidc_async hfind, fun h ↦ absurd h hnone, fun _ ↦ ?_⟩
      -- a thread that has been started has not stored anything yet
      have hservers : (getOIDCAsync io server caller
          (s.lookedUp server srv caller.uid)).2.servers =
            (s.lookedUp server srv caller.uid).servers := by
        rw [getOIDCAsync]
        split_ifs
        · rfl
        · rfl
      rw [State.tokenOf, hservers, find_lookedUp hfind, Option.map_some, Option.getD_some,
        token_setToken]
    · exact ⟨.tokenError, s, rfl, fun h ↦ absurd h hnone, fun _ ↦ tokenOf_of_find hfind⟩

/-- The token is looked up twice, for the pointer and to see whether it is valid. This changes
neither the token nor the settings. -/
theorem getAuthHeaders_lookedUp (hfind : s.servers.find server = some srv) :
    ∃ u srv', u.servers.find server = some srv' ∧ srv'.token caller.uid = srv.token caller.uid ∧
      srv'.rucioConnParams = srv.rucioConnParams ∧
      authResponse io srv' u = authResponse io srv s ∧
      getAuthHeaders io server caller s =
        (if (srv.token caller.uid).validAt io.now then pure u
          else Prod.snd <$> rucioGetAuthToken io server caller u) >>= fun t ↦
            .ok (some [tokenHeader (t.tokenOf server caller.uid).connToken], t) := by
  have hfind₁ := @find_lookedUp server srv caller.uid s hfind
  have hfind₂ := @find_lookedUp _ _ caller.uid _ hfind₁
  have hvalid := @rucioIsTokenValid_of_find io server _ caller.uid _ hfind₁
  refine ⟨_, _, hfind₂, by rw [token_setToken, token_setToken], rfl, rfl, ?_⟩
  rw [getAuthHeaders, getServerParams_of_find hfind, getServerToken_of_find hfind]
  rw [token_setToken, State.lookedUp] at hvalid
  simp only [hvalid]
  split_ifs
  · rfl
  · rfl

/-- **The header carries what is stored**: the old token if it is valid or if no new one has come,
else the new one. -/
theorem getAuthHeaders_of_find (hfind : s.servers.find server = some srv) :
    ∃ t, getAuthHeaders io server caller s =
        .ok (some [tokenHeader (t.tokenOf server caller.uid).connToken], t) ∧
      ((srv.token caller.uid).validAt io.now = false ∧ Renews io srv s →
        t.tokenOf server caller.uid =
          (srv.token caller.uid).replaced io (authResponse io srv s).payload) ∧
      (¬ ((srv.token caller.uid).validAt io.now = false ∧ Renews io srv s) →
        t.tokenOf server caller.uid = srv.token caller.uid) := by
  obtain ⟨u, srv', hfind', htoken, hparams, hresponse, hheaders⟩ :=
    @getAuthHeaders_lookedUp io server srv caller s hfind
  rw [hheaders]
  rcases hnow : (srv.token caller.uid).validAt io.now with - | -
  · obtain ⟨result, t, hrequest, hrenewed, hkept⟩ :=
      @tokenOf_requestToken io server srv' caller u hfind'
    rw [htoken, Renews, hresponse, hparams] at hrenewed hkept
    rw [rucioGetAuthToken, getServerParams_of_find hfind', deref_some, ok_bind, hrequest]
    exact ⟨t, rfl, fun h ↦ hrenewed h.2, fun h ↦ hkept fun hrenews ↦ h ⟨rfl, hrenews⟩⟩
  · refine ⟨u, rfl, fun h ↦ Bool.noConfusion h.1, fun _ ↦ ?_⟩
    rw [tokenOf_of_find hfind', htoken]

end Asking

/-- Headers always carry the token that is stored when they have been made. -/
theorem getAuthHeaders_fields {io : Io} {server : Str} {caller : Caller} {s t : State}
    {fields : List Str} (h : getAuthHeaders io server caller s = .ok (some fields, t)) :
    fields = [tokenHeader (t.tokenOf server caller.uid).connToken] := by
  rcases hfind : s.servers.find server with - | srv
  · rw [getAuthHeaders, getServerParams_eq_none hfind] at h
    cases h
  · obtain ⟨u, hheaders, -⟩ := @getAuthHeaders_of_find io server srv caller s hfind
    rw [hheaders] at h
    obtain ⟨hfields, rfl⟩ := Prod.mk.inj (Except.ok.inj h)
    exact (Option.some.inj hfields).symm

/-! ### The request for the scopes -/

/-- `rucio_list_scopes` sends a request in a state: no entry of the cache may be used, and headers
have been made. -/
structure ScopesRequest (io : Io) (server : Str) (caller : Caller) (s : State) (request : Request)
    (t : State) : Prop where
  stale : ∀ entry, s.scopesCache.find server = some entry → entry.1 < io.now
  asked : Asked io server "/scopes/".toList caller s request t

section Requests

variable {io : Io} {server : Str} {srv : RucioServer} {caller : Caller} {s t : State}
  {request : Request}

/-- What becomes of such a request, whatever the answer. -/
theorem rucioListScopes_of_request (h : ScopesRequest io server caller s request t) :
    rucioListScopes io server caller s =
      if (io.net t.log request).ok then
        (tokenizeAll (io.net t.log request).payload []).map fun scopes ↦
          (scopes, (t.note (.sent request)).setScopes server (io.now + chacheDuration, scopes))
      else .ok ([], t.note (.sent request)) := by
  obtain ⟨fields, hheaders, params, hparams, rfl⟩ := h.asked.headers
  have hparams' : getServerParams t.servers server = some params :=
    (h.asked.quiet.settings.getServerParams server).trans hparams
  have hfetch : rucioListScopes io server caller s = fetchScopes io server caller s := by
    rw [rucioListScopes]
    split
    · rfl
    · rename_i entry hentry
      rw [if_pos (h.stale entry hentry)]
  rw [hfetch, fetchScopes, hheaders]
  simp only [ok_bind, hparams', safeGET_eq, curlGET_eq]
  by_cases hok : (io.net t.log (dataRequest params "/scopes/".toList fields).asSent).ok = true
  · simp only [hok, Bool.not_true, Bool.false_eq_true, ↓reduceIte]
    rfl
  · simp only [hok, Bool.not_false, ↓reduceIte]
    rfl

end Requests

/-! ### Exactness -/

/-- The condition: the stored token is good for the moment of sending. Or it is found to be invalid,
and the server answers a request for a token with one that is good for that moment. -/
def SentCondition (io : Io) (moment : ℤ) (srv : RucioServer) (uid : ℕ) (s : State) : Prop :=
  (srv.token uid).validAt moment = true ∨
    (srv.token uid).validAt io.now = false ∧ Renews io srv s ∧
      Usable { io with now := moment } (srv.token uid) (authResponse io srv s).payload

/-- All headers carry the stored token, and it is valid at the moment of sending. -/
def HeadersValid (io : Io) (moment : ℤ) (server : Str) (caller : Caller) (s : State) : Prop :=
  ∀ fields t, getAuthHeaders io server caller s = .ok (some fields, t) →
    fields = [tokenHeader (t.tokenOf server caller.uid).connToken] ∧
      (rucioIsTokenValid { io with now := moment } server caller.uid t).1 = true

/-- The same for the request for the scopes. -/
def ScopesValid (io : Io) (moment : ℤ) (server : Str) (caller : Caller) (s : State) : Prop :=
  ∀ request t, ScopesRequest io server caller s request t →
    request.headers = [cStr (tokenHeader (t.tokenOf server caller.uid).connToken)] ∧
      (rucioIsTokenValid { io with now := moment } server caller.uid t).1 = true

section Exact

variable {io : Io} {moment : ℤ} {server : Str} {srv : RucioServer} {caller : Caller} {s t : State}

/-- What is valid later is valid now. -/
theorem TokenInfo.validAt_of_later {info : TokenInfo} {now : ℤ} (h : now ≤ moment)
    (hvalid : info.validAt moment = true) : info.validAt now = true := by
  rw [TokenInfo.validAt, Bool.and_eq_true, decide_eq_true_iff, decide_eq_true_iff] at *
  exact ⟨hvalid.1, by omega⟩

/-- A token that is not there is not valid. -/
theorem rucioIsTokenValid_fst (io : Io) (server : Str) (uid : ℕ) (t : State) :
    (rucioIsTokenValid io server uid t).1 = (t.tokenOf server uid).validAt io.now := by
  rcases hfind : t.servers.find server with - | srv
  · have htoken : t.tokenOf server uid = {} := by
      rw [State.tokenOf, hfind, Option.map_none, Option.getD_none]
    rw [rucioIsTokenValid, getServerToken, hfind, htoken, TokenInfo.validAt]
    rfl
  · rw [rucioIsTokenValid_of_find hfind, tokenOf_of_find hfind]

/-- Without a server there are no headers. -/
theorem getAuthHeaders_unloaded (hfind : s.servers.find server = none) :
    getAuthHeaders io server caller s = .ok (none, s) := by
  rw [getAuthHeaders, getServerParams_eq_none hfind]
  rfl

/-- The token that is stored when the headers have been made. -/
theorem validAt_tokenOf_iff (hmoment : io.now ≤ moment)
    (hrenewed : (srv.token caller.uid).validAt io.now = false ∧ Renews io srv s →
      t.tokenOf server caller.uid =
        (srv.token caller.uid).replaced io (authResponse io srv s).payload)
    (hkept : ¬ ((srv.token caller.uid).validAt io.now = false ∧ Renews io srv s) →
      t.tokenOf server caller.uid = srv.token caller.uid) :
    (t.tokenOf server caller.uid).validAt moment = true ↔
      SentCondition io moment srv caller.uid s := by
  by_cases hasked : (srv.token caller.uid).validAt io.now = false ∧ Renews io srv s
  · have hstale : ¬ (srv.token caller.uid).validAt moment = true := fun h ↦ by
      rw [TokenInfo.validAt_of_later hmoment h] at hasked
      exact Bool.noConfusion hasked.1
    rw [hrenewed hasked, TokenInfo.replaced, SentCondition]
    have hvalid := @validAt_renewed_iff { io with now := moment } (srv.token caller.uid)
      (lastField rucioTokenPrefix (authResponse io srv s).payload)
      (lastField rucioTokenDurationPrefix (authResponse io srv s).payload)
    exact ⟨fun h ↦ Or.inr ⟨hasked.1, hasked.2, hvalid.1 h⟩, fun h ↦
      hvalid.2 (h.resolve_left hstale).2.2⟩
  · rw [hkept hasked, SentCondition]
    exact ⟨Or.inl, fun h ↦ h.resolve_right fun hright ↦ hasked ⟨hright.1, hright.2.1⟩⟩

/-- **When headers carry a valid token.** -/
theorem headersValid_iff (hmoment : io.now ≤ moment) :
    HeadersValid io moment server caller s ↔
      ∀ srv, s.servers.find server = some srv → SentCondition io moment srv caller.uid s := by
  rcases hfind : s.servers.find server with - | srv
  · refine iff_of_true (fun fields t h ↦ ?_) fun srv h ↦ by cases h
    rw [getAuthHeaders_unloaded hfind] at h
    cases h
  · obtain ⟨t, hheaders, hrenewed, hkept⟩ := @getAuthHeaders_of_find io server srv caller s hfind
    have hiff := validAt_tokenOf_iff hmoment hrenewed hkept
    constructor
    · intro h srv' hsrv'
      obtain rfl := Option.some.inj hsrv'
      have hvalid := (h _ t hheaders).2
      rw [rucioIsTokenValid_fst] at hvalid
      exact hiff.1 hvalid
    · intro h fields t' ht'
      refine ⟨getAuthHeaders_fields ht', ?_⟩
      rw [hheaders] at ht'
      obtain ⟨-, rfl⟩ := Prod.mk.inj (Except.ok.inj ht')
      rw [rucioIsTokenValid_fst]
      exact hiff.2 (h srv rfl)

/-- **When the request for the scopes carries a valid token.** -/
theorem scopesValid_iff (hmoment : io.now ≤ moment) :
    ScopesValid io moment server caller s ↔
      (∃ entry, s.scopesCache.find server = some entry ∧ io.now ≤ entry.1) ∨
        ∀ srv, s.servers.find server = some srv → SentCondition io moment srv caller.uid s := by
  rw [← headersValid_iff hmoment]
  constructor
  · intro h
    by_cases hfresh : ∃ entry, s.scopesCache.find server = some entry ∧ io.now ≤ entry.1
    · exact Or.inl hfresh
    · refine Or.inr fun fields t hheaders ↦ ⟨getAuthHeaders_fields hheaders, ?_⟩
      have hstale : ∀ entry, s.scopesCache.find server = some entry → entry.1 < io.now :=
        fun entry hentry ↦ Int.not_le.1 fun hle ↦ hfresh ⟨entry, hentry, hle⟩
      rcases getAuthHeaders_eq_ok hheaders with ⟨hnone, -⟩ | ⟨fields', params, -, hparams⟩
      · cases hnone
      · exact (h _ t ⟨hstale, fields, hheaders, params, hparams, rfl⟩).2
  · rintro (⟨entry, hentry, hfresh⟩ | h) request t hrequest
    · have hstale := hrequest.stale entry hentry
      omega
    · obtain ⟨fields, hheaders, params, hparams, rfl⟩ := hrequest.asked.headers
      obtain ⟨rfl, hvalid⟩ := h fields t hheaders
      exact ⟨rfl, hvalid⟩

/-- **When data requests carry a valid token.** For every state, user and server, every answer of
the world and every moment of sending that is not in front of the call: the headers that are handed
out carry a token that is valid then exactly if the condition holds, should the server be loaded.
The same is true of the request for the scopes, unless it is not sent because a listing may be
used. -/
theorem auth_headers_valid_iff (io : Io) (moment : ℤ) (server : Str) (caller : Caller) (s : State)
    (hmoment : io.now ≤ moment) :
    (HeadersValid io moment server caller s ↔
      ∀ srv, s.servers.find server = some srv → SentCondition io moment srv caller.uid s) ∧
    (ScopesValid io moment server caller s ↔
      (∃ entry, s.scopesCache.find server = some entry ∧ io.now ≤ entry.1) ∨
        ∀ srv, s.servers.find server = some srv → SentCondition io moment srv caller.uid s) :=
  ⟨headersValid_iff hmoment, scopesValid_iff hmoment⟩

end Exact

/-- A response with a good token leads to a valid header, for a while. -/
theorem auth_headers_valid_newcomer :
    HeadersValid sampleTokenIo 3600 ['s'] sampleCaller sampleNewcomer ∧
      ScopesValid sampleTokenIo 3600 ['s'] sampleCaller sampleNewcomer := by
  have hcondition : ∀ srv, sampleNewcomer.servers.find ['s'] = some srv →
      SentCondition sampleTokenIo 3600 srv sampleCaller.uid sampleNewcomer := by
    rintro srv hsrv
    obtain rfl : sampleServer = srv := Option.some.inj hsrv
    have hlines : ∀ line ∈ (authResponse sampleTokenIo sampleServer sampleNewcomer).payload,
        (Text.find rucioTokenExceptionPrefix line).isSome = false := by
      decide +kernel
    refine Or.inr ⟨by decide +kernel, ⟨Or.inl rfl, by decide +kernel, ?_⟩, by decide +kernel,
      by decide +kernel, by decide +kernel⟩
    rintro ⟨line, hline, hrefused⟩
    rw [hlines line hline] at hrefused
    cases hrefused
  obtain ⟨hheaders, hscopes⟩ := auth_headers_valid_iff sampleTokenIo 3600 ['s'] sampleCaller
    sampleNewcomer (by decide)
  exact ⟨hheaders.2 hcondition, hscopes.2 (Or.inr hcondition)⟩

/-- **The marker of an invalid token is sent** to a server that cannot be reached for a token. -/
theorem not_auth_headers_valid_newcomer :
    ¬ (∀ (io : Io) (server : Str) (caller : Caller) (s : State),
        HeadersValid io io.now server caller s ∧ ScopesValid io io.now server caller s) ∧
    (getAuthHeaders { sampleIo with net := fun _ _ ↦ ⟨7, []⟩ } ['s'] sampleCaller
      sampleNewcomer).map Prod.fst = .ok (some [tokenHeader rucioInvalidToken]) := by
  have hrun : (getAuthHeaders { sampleIo with net := fun _ _ ↦ ⟨7, []⟩ } ['s'] sampleCaller
      sampleNewcomer).map Prod.fst = .ok (some [tokenHeader rucioInvalidToken]) := by
    decide +kernel
  refine ⟨fun hall ↦ ?_, hrun⟩
  obtain ⟨t, ht⟩ := exists_of_map_fst_eq_ok hrun
  obtain ⟨hfields, hvalid⟩ := (hall _ ['s'] sampleCaller sampleNewcomer).1 _ t ht
  rw [rucioIsTokenValid_fst, TokenInfo.validAt, Bool.and_eq_true, decide_eq_true_iff] at hvalid
  refine hvalid.1 ?_
  have htoken := (List.cons.inj hfields).1
  exact (List.append_cancel_left htoken).symm

end FusePosix
