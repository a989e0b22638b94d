import FusePosix.Rest.Exchange

/-!
# What a call does to tokens

Tokens belong to a server and a user. A call of the REST client is made for one user and asks one
server, so it should not touch the token of anybody else, and not send the user's token anywhere
else. `Isolated` says so about everything that happens between two states: the tokens of the other
pairs are the same, so are the servers with their settings, and every request goes to the server and
carries at most the user's token.

The user's own token changes on the way, possibly between two requests of one call. What is stored
when a request is sent is therefore read off the log: it is the token from before, or the one the
last authentication answer brought (`tokenAfter`).

Only servers in the modes `userpass` and `x509` are talked about. In the mode `oidc` a token arrives
later, by a thread.

The proofs go from the inside out: storing a token, the two requests that ask for one, the gate and
the headers, an exchange, and then each call of the client, all of them by `Isolated.trans`.

**Not claimed:** that a request stays at the server. `Request.Own` is about the address to which a
request is sent first; a server that redirects it sends it elsewhere, with the token in its headers
(`Io.redirects`). What that does to the tokens is in `FusePosix.Fuse.Isolation`.
-/

namespace FusePosix

/-! ### Tokens, by server and user -/

/-- The token that is stored for a user, if one is. -/
def State.storedToken (s : State) (server : Str) (uid : ℕ) : Option TokenInfo :=
  (s.servers.find server).bind (·.rucioTokenInfos.find uid)

/-- All servers take requests for tokens. -/
def RequestModes (servers : ServerMap) : Prop :=
  ∀ name params, getServerParams servers name = some params →
    params.rucioAuthMode = .userpass ∨ params.rucioAuthMode = .x509

/-- The token an answer to an authentication request brings, if it brings one. -/
def CurlRet.broughtToken (ret : CurlRet) : Option Str :=
  if ret.ok then (tokenLines ret.payload [] []).map fun found ↦
    if cStrNonempty found.1 then found.1 else rucioInvalidToken
  else none

/-- The token that is stored after some events, latest first, given the one from before them and the
log they were added to. -/
def tokenAfter (io : Io) (token : Str) (older : List Event) : List Event → Str
  | [] => token
  | .sent request :: events =>
    -- only authentication requests ask for the headers of the answer
    if request.includeHeaders then
      (io.net (events ++ older) request).broughtToken.getD (tokenAfter io token older events)
    else tokenAfter io token older events
  | .stored _ _ _ :: events => tokenAfter io token older events
  | .used _ _ _ :: events => tokenAfter io token older events

/-- An address is below that of a server. -/
def ConnectionParameters.Serves (params : ConnectionParameters) (url : Str) : Prop :=
  ∃ resource, resource.head? = some '/' ∧ url = cStr (params.serverUrl ++ resource)

/-- A request goes to an address below that of a server, and no token but the given one goes with
it. -/
structure Request.Own (request : Request) (params : ConnectionParameters) (token : Str) : Prop where
  url : params.Serves request.url
  headers : ∀ header ∈ request.headers, rucioTokenPrefix <+: header →
    header = cStr (tokenHeader token)

/-- What has happened between two states concerns one server and one user only. -/
structure Isolated (io : Io) (server : Str) (uid : ℕ) (s t : State) : Prop where
  tokens : ∀ server' uid', (server', uid') ≠ (server, uid) →
    t.storedToken server' uid' = s.storedToken server' uid'
  settings : SameSettings s.servers t.servers
  log : ∃ events, t.log = events ++ s.log ∧
    (t.tokenOf server uid).connToken =
      tokenAfter io (s.tokenOf server uid).connToken s.log events ∧
    ∀ later request earlier, events = later ++ .sent request :: earlier →
      ∃ params, getServerParams s.servers server = some params ∧
        request.Own params (tokenAfter io (s.tokenOf server uid).connToken s.log earlier)

section Tokens

variable {io : Io} {server : Str} {uid : ℕ} {s t u : State} {servers : ServerMap}

/-- The modes belong to the settings. -/
theorem RequestModes.of_sameSettings {servers' : ServerMap} (h : RequestModes servers)
    (hsame : SameSettings servers servers') : RequestModes servers' := by
  intro name params hparams
  rw [hsame.getServerParams] at hparams
  exact h name params hparams

/-- A token is stored for one user of one server. -/
theorem storedToken_storeToken_of_ne {server' : Str} {uid' : ℕ} (info : TokenInfo)
    (hne : (server', uid') ≠ (server, uid)) :
    ({ s with servers := storeToken s.servers server uid info } : State).storedToken server' uid' =
      s.storedToken server' uid' := by
  rw [State.storedToken, State.storedToken, find_storeToken]
  -- another user of the same server, or another server
  split_ifs with hserver
  · subst hserver
    have huid : uid' ≠ uid := fun heq ↦ hne (by rw [heq])
    rcases s.servers.find server' with - | srv
    · rfl
    · show (srv.rucioTokenInfos.insert uid info).find uid' = srv.rucioTokenInfos.find uid'
      rw [Table.find_insert, if_neg huid]
  · rfl

/-- What is stored for a user of a loaded server is the user's token. -/
theorem tokenOf_storeToken_self {srv : RucioServer} (hfind : s.servers.find server = some srv)
    (info : TokenInfo) :
    ({ s with servers := storeToken s.servers server uid info } : State).tokenOf server uid =
      info := by
  rw [State.tokenOf, find_storeToken, if_pos rfl, hfind]
  show ((srv.rucioTokenInfos.insert uid info).find uid).getD {} = info
  rw [Table.find_insert_self, Option.getD_some]

/-- The token of a user of a loaded server is the one in the registry. -/
theorem tokenOf_of_find {srv : RucioServer} (hfind : s.servers.find server = some srv) :
    s.tokenOf server uid = srv.token uid := by
  rw [State.tokenOf, hfind, Option.map_some, Option.getD_some]

/-! ### Events -/

/-- What happens later goes on with the token that is there then. -/
theorem tokenAfter_append (token : Str) (older earlier : List Event) : ∀ later : List Event,
    tokenAfter io token older (later ++ earlier) =
      tokenAfter io (tokenAfter io token older earlier) (earlier ++ older) later
  | [] => rfl
  | .sent request :: later => by
    rw [List.cons_append, tokenAfter, tokenAfter, List.append_assoc,
      tokenAfter_append token older earlier later]
  | .stored _ _ _ :: later => tokenAfter_append token older earlier later
  | .used _ _ _ :: later => tokenAfter_append token older earlier later

/-- Without requests there is no new token. -/
theorem tokenAfter_of_forall_ne_sent {token : Str} {older events : List Event}
    (h : ∀ request, .sent request ∉ events) : tokenAfter io token older events = token := by
  induction events with
  | nil => rfl
  | cons event events ih =>
    have hrest : tokenAfter io token older events = token :=
      ih fun request hmem ↦ h request (List.mem_cons_of_mem event hmem)
    rcases event with request | - | -
    · exact absurd List.mem_cons_self (h request)
    · exact hrest
    · exact hrest

/-- What does not concern tokens and requests concerns nobody. -/
theorem isolated_of_events {events : List Event} (hservers : t.servers = s.servers)
    (hlog : t.log = events ++ s.log) (hnone : ∀ request, .sent request ∉ events) :
    Isolated io server uid s t := by
  refine ⟨fun server' uid' _ ↦ ?_, hservers ▸ sameSettings_refl _, events, hlog, ?_, ?_⟩
  · rw [State.storedToken, State.storedToken, hservers]
  · rw [tokenAfter_of_forall_ne_sent hnone, State.tokenOf, State.tokenOf, hservers]
  · rintro later request earlier rfl
    exact absurd (List.mem_append_right _ List.mem_cons_self) (hnone request)

/-- Nothing has happened. -/
theorem isolated_refl (s : State) : Isolated io server uid s s :=
  isolated_of_events rfl (List.nil_append s.log).symm fun _ ↦ List.not_mem_nil

/-- **What concerns one user, one thing after the other, concerns one user.** -/
theorem Isolated.trans (h : Isolated io server uid s t) (h' : Isolated io server uid t u) :
    Isolated io server uid s u := by
  obtain ⟨earlier, ht, htoken, hrequests⟩ := h.log
  obtain ⟨later, hu, htoken', hrequests'⟩ := h'.log
  refine ⟨fun server' uid' hne ↦ (h'.tokens server' uid' hne).trans (h.tokens server' uid' hne),
    h.settings.trans h'.settings, later ++ earlier, ?_, ?_, ?_⟩
  · rw [hu, ht, List.append_assoc]
  · rw [tokenAfter_append, ← htoken, ← ht, htoken']
  · intro after request before heq
    -- the request belongs to the second part or to the first one
    rcases List.append_eq_append_iff.1 heq with ⟨middle, hafter, hearlier⟩ |
      ⟨middle, hlater, hmiddle⟩
    · exact hrequests middle request before hearlier
    · rcases middle with - | ⟨event, middle⟩
      · exact hrequests [] request before hmiddle.symm
      · obtain ⟨rfl, hbefore⟩ := List.cons.inj hmiddle
        obtain ⟨params, hparams, hown⟩ := hrequests' after request middle hlater
        refine ⟨params, (h.settings.getServerParams server).symm.trans hparams, ?_⟩
        rwa [show before = middle ++ earlier from hbefore, tokenAfter_append, ← htoken, ← ht]

/-- One request has been sent, and nothing happened to the tokens but what its answer says. -/
theorem isolated_of_sent {request : Request} {params : ConnectionParameters}
    (htokens : ∀ server' uid', (server', uid') ≠ (server, uid) →
      t.storedToken server' uid' = s.storedToken server' uid')
    (hsettings : SameSettings s.servers t.servers) (hlog : t.log = .sent request :: s.log)
    (htoken : (t.tokenOf server uid).connToken =
      tokenAfter io (s.tokenOf server uid).connToken s.log [.sent request])
    (hparams : getServerParams s.servers server = some params)
    (hown : request.Own params (s.tokenOf server uid).connToken) :
    Isolated io server uid s t := by
  refine ⟨htokens, hsettings, [.sent request], hlog, htoken, ?_⟩
  intro later other earlier heq
  obtain ⟨rfl, hother, rfl⟩ : later = [] ∧ request = other ∧ earlier = [] := by
    rcases later with - | ⟨event, later⟩
    · simpa [eq_comm] using heq
    · simp at heq
  exact ⟨params, hparams, hother ▸ hown⟩

end Tokens

/-! ### Authentication -/

/-- A header of another name is no token. -/
theorem not_rucioTokenPrefix_prefix_cStr {name value : Str} (hlength : name.length ≤ 20)
    (hname : ¬name <+: rucioTokenPrefix) : ¬rucioTokenPrefix <+: cStr (name ++ value) := by
  intro hprefix
  have hwhole : rucioTokenPrefix <+: name ++ value := hprefix.trans (List.takeWhile_prefix _)
  exact hname (List.prefix_of_prefix_length_le (List.prefix_append name value) hwhole hlength)

section Authentication

variable {io : Io} {server resource : Str} {uid : ℕ} {caller : Caller} {s t : State}

/-- A request for a token with account and password goes to the server and carries no token, -/
theorem own_userpassRequest (params : ConnectionParameters) (token : Str) :
    (userpassRequest params).asSent.Own params token := by
  refine ⟨⟨"/auth/userpass".toList, by decide +kernel, rfl⟩, fun header hmem hprefix ↦ ?_⟩
  exfalso
  obtain ⟨field, hfield, rfl⟩ := List.mem_map.1 hmem
  simp only [userpassRequest, List.mem_cons, List.not_mem_nil, or_false] at hfield
  -- three headers, none of which begins like the one with the token
  rcases hfield with rfl | rfl | rfl
  all_goals
    exact not_rucioTokenPrefix_prefix_cStr (by decide +kernel) (by decide +kernel) hprefix

/-- and so does one with a certificate. -/
theorem own_x509Request (params : ConnectionParameters) (bundle : CurlX509Bundle) (token : Str) :
    (x509Request params bundle).asSent.Own params token := by
  refine ⟨⟨"/auth/x509".toList, by decide +kernel, rfl⟩, fun header hmem hprefix ↦ ?_⟩
  exfalso
  obtain ⟨field, hfield, rfl⟩ := List.mem_map.1 hmem
  obtain rfl := List.mem_singleton.1 hfield
  exact not_rucioTokenPrefix_prefix_cStr (by decide +kernel) (by decide +kernel) hprefix

/-- A request for data goes to the server and carries the token it was made with. -/
theorem own_dataRequest {params : ConnectionParameters} {token : Str}
    (hresource : resource.head? = some '/') :
    (dataRequest params resource [tokenHeader token]).asSent.Own params token := by
  refine ⟨⟨resource, hresource, rfl⟩, fun header hmem _ ↦ ?_⟩
  exact List.mem_singleton.1 hmem

/-- **Looking the user's token up does not change it.** -/
theorem isolated_getServerToken (s : State) :
    Isolated io server uid s { s with servers := (getServerToken s.servers server uid).2 } := by
  rcases hfind : s.servers.find server with - | srv
  · rw [getServerToken, hfind]
    exact isolated_refl s
  · rw [getServerToken, hfind]
    refine ⟨fun _ _ hne ↦ storedToken_storeToken_of_ne _ hne, sameSettings_storeToken _ _ _ _, [],
      rfl, ?_, fun later request earlier hnil ↦ by simp at hnil⟩
    rw [tokenOf_storeToken_self hfind, tokenOf_of_find hfind]
    rfl

/-- Checking the token is looking it up. -/
theorem isolated_rucioIsTokenValid (s : State) :
    Isolated io server uid s (rucioIsTokenValid io server uid s).2 := by
  have hlookup := @isolated_getServerToken io server uid s
  rw [rucioIsTokenValid]
  split
  · exact isolated_refl s
  · rename_i info servers htoken
    rwa [htoken] at hlookup

/-- **A login concerns the user and the server it is for**, whatever the answer is. -/
theorem isolated_receiveToken {request : Request} {params : ConnectionParameters}
    (hparams : getServerParams s.servers server = some params)
    (hauth : request.includeHeaders = true) (hown : ∀ token, request.Own params token) :
    Isolated io server uid s
      (receiveToken io server uid (io.net s.log request) (s.note (.sent request))).2 := by
  obtain ⟨srv, hfind, -⟩ := Option.map_eq_some_iff.1 hparams
  -- the answer is one to a request for a token, so it decides
  have hafter : tokenAfter io (s.tokenOf server uid).connToken s.log [.sent request] =
      (io.net s.log request).broughtToken.getD (s.tokenOf server uid).connToken := by
    rw [tokenAfter, if_pos hauth]
    rfl
  -- without a token in the answer, nothing is stored
  have hnothing : (io.net s.log request).broughtToken = none →
      Isolated io server uid s (s.note (.sent request)) := by
    intro hbrought
    refine isolated_of_sent (fun _ _ _ ↦ rfl) (sameSettings_refl _) rfl ?_ hparams (hown _)
    rw [hafter, hbrought]
    rfl
  rcases hok : (io.net s.log request).ok
  · rw [receiveToken, hok]
    exact hnothing (by rw [CurlRet.broughtToken, hok]; rfl)
  rcases hlines : tokenLines (io.net s.log request).payload [] [] with - | ⟨token, expireTimeString⟩
  · rw [receiveToken, hok, hlines]
    exact hnothing (by rw [CurlRet.broughtToken, hok, hlines]; rfl)
  rw [@receiveToken_of_lines io server uid _ (s.note (.sent request)) _ _ srv hok hlines hfind]
  -- the lookup has created an entry, which the token of the answer replaces
  have hfind' : ({ s with servers := storeToken s.servers server uid (srv.token uid) } :
      State).servers.find server = some (srv.setToken uid (srv.token uid)) := by
    show (storeToken s.servers server uid (srv.token uid)).find server = _
    rw [find_storeToken, if_pos rfl, hfind, Option.map_some]
  refine isolated_of_sent (fun server' uid' hne ↦ ?_) ?_ rfl ?_ hparams (hown _)
  · exact (@storedToken_storeToken_of_ne server uid
        { s with servers := storeToken s.servers server uid (srv.token uid) } server' uid' _
        hne).trans (storedToken_storeToken_of_ne _ hne)
  · exact (sameSettings_storeToken _ _ _ _).trans (sameSettings_storeToken _ _ _ _)
  · rw [hafter, CurlRet.broughtToken, hok, hlines]
    exact congrArg TokenInfo.connToken (tokenOf_storeToken_self hfind' _)

/-- Asking for a token in one of the request modes is a login, unless the server is not loaded. -/
theorem isolated_requestToken {mode : AuthMode} {result : AuthResult}
    (hmode : mode = .userpass ∨ mode = .x509)
    (h : requestToken io mode server caller s = .ok (result, t)) :
    Isolated io server caller.uid s t := by
  -- both modes send one request and read its answer
  rcases hmode with rfl | rfl
  · simp only [requestToken, rucioGetAuthTokenUserpass] at h
    split at h
    · obtain ⟨-, rfl⟩ := Prod.mk.inj (Except.ok.inj h)
      exact isolated_refl s
    · rename_i params hparams
      obtain rfl : _ = t := congrArg Prod.snd (Except.ok.inj h)
      exact isolated_receiveToken hparams rfl (own_userpassRequest params)
  · simp only [requestToken, rucioGetAuthTokenX509] at h
    split at h
    · obtain ⟨-, rfl⟩ := Prod.mk.inj (Except.ok.inj h)
      exact isolated_refl s
    · rename_i params hparams
      obtain ⟨bundle, -, h⟩ := bind_eq_ok.1 h
      obtain rfl : _ = t := congrArg Prod.snd (Except.ok.inj h)
      exact isolated_receiveToken hparams rfl (own_x509Request params bundle)

/-- **The gate concerns the user and the server of the path.** -/
theorem isolated_authenticateUser {path : Str} {result : AuthResult}
    (hmodes : RequestModes s.servers) (h : authenticateUser io path caller s = .ok (result, t)) :
    Isolated io (extractServerName path) caller.uid s t := by
  have hvalid := @isolated_rucioIsTokenValid io (extractServerName path) caller.uid s
  simp only [authenticateUser] at h
  split_ifs at h with hv
  · obtain rfl : _ = t := congrArg Prod.snd (Except.ok.inj h)
    exact hvalid
  · split at h
    · obtain rfl : _ = t := congrArg Prod.snd (Except.ok.inj h)
      exact hvalid
    · rename_i params hparams
      exact hvalid.trans (isolated_requestToken
        (hmodes.of_sameSettings hvalid.settings _ _ hparams) h)

/-- **So do the headers of a request**, which carry the token that is stored when they are made. -/
theorem isolated_getAuthHeaders {headers : Option (List Str)} (hmodes : RequestModes s.servers)
    (h : getAuthHeaders io server caller s = .ok (headers, t)) :
    Isolated io server caller.uid s t ∧
      ∀ fields, headers = some fields →
        fields = [tokenHeader (t.tokenOf server caller.uid).connToken] := by
  have hlookup := @isolated_getServerToken io server caller.uid s
  rw [getAuthHeaders] at h
  split at h
  · rename_i params info servers hparams htoken
    rw [htoken] at hlookup
    have hvalid := hlookup.trans
      (@isolated_rucioIsTokenValid io server caller.uid { s with servers })
    simp only at h
    -- a valid token goes into the header, otherwise the one that the login leaves
    split_ifs at h with hv
    · obtain ⟨rfl, rfl⟩ := Prod.mk.inj (Except.ok.inj h)
      exact ⟨hvalid, fun fields hfields ↦ (Option.some.inj hfields).symm⟩
    · obtain ⟨u, hu, h⟩ := bind_eq_ok.1 h
      obtain ⟨⟨result, u'⟩, hrequest, rfl⟩ := map_eq_ok hu
      obtain ⟨rfl, rfl⟩ := Prod.mk.inj (Except.ok.inj h)
      obtain ⟨params', hparams', hrequest⟩ := bind_eq_ok.1 hrequest
      refine ⟨hvalid.trans (isolated_requestToken ?_ hrequest),
        fun fields hfields ↦ (Option.some.inj hfields).symm⟩
      exact hmodes.of_sameSettings hvalid.settings _ _ (deref_eq_ok hparams')
  · obtain ⟨rfl, rfl⟩ := Prod.mk.inj (Except.ok.inj h)
    exact ⟨isolated_refl s, fun fields hfields ↦ by cases hfields⟩

end Authentication

/-! ### Exchanges -/

section Exchanges

variable {io : Io} {server scope name resource path : Str} {caller : Caller} {uid : ℕ} {s t : State}

/-- A request for data carries the token that is stored then: the headers have been made for it, and
nothing happens in between. -/
theorem Asked.isolated {request : Request} (h : Asked io server resource caller s request t)
    (hmodes : RequestModes s.servers) (hresource : resource.head? = some '/') :
    Isolated io server caller.uid s (t.note (.sent request)) := by
  obtain ⟨fields, hheaders, params, hparams, rfl⟩ := h.headers
  obtain ⟨hmade, hfields⟩ := isolated_getAuthHeaders hmodes hheaders
  refine hmade.trans (isolated_of_sent (fun _ _ _ ↦ rfl) (sameSettings_refl _) rfl rfl
    ((hmade.settings.getServerParams server).trans hparams) ?_)
  rw [hfields fields rfl]
  exact own_dataRequest hresource

/-- **An exchange concerns the user it is made for and the server it is made with.** -/
theorem Exchanged.isolated {payload : Option (List Str)}
    (h : Exchanged io server resource caller s payload t) (hmodes : RequestModes s.servers)
    (hresource : resource.head? = some '/') : Isolated io server caller.uid s t := by
  rcases h with - | ⟨hasked, -⟩ | ⟨hasked, -⟩
  · exact isolated_refl s
  · exact hasked.isolated hmodes hresource
  · exact hasked.isolated hmodes hresource

/-! ### Entries of caches -/

/-- An entry is stored, which has nothing to do with tokens. -/
theorem Stores.isolated {cache : CacheName} {entity : Entity} {key : Str}
    (h : Stores s t cache entity key) : Isolated io server uid s t :=
  @isolated_of_events io server uid s t [.stored cache entity key] h.servers h.log
    fun request ↦ by simp

/-- An entry is used. -/
theorem isolated_note_used (cache : CacheName) (entity : Entity) (key : Str) :
    Isolated io server uid s (s.note (.used cache entity key)) :=
  @isolated_of_events io server uid s _ [.used cache entity key] rfl rfl fun request ↦ by simp

/-- The parser keeps something back. -/
theorem isolated_remainder (remainder : Str) :
    Isolated io server uid s { s with didStringRemainder := remainder } :=
  isolated_of_events rfl (List.nil_append s.log).symm fun _ ↦ List.not_mem_nil

/-- The lookups are told about records. -/
theorem isolated_primeLookups (server' : Str) (dids : List RucioDid) :
    Isolated io server uid s (s.primeLookups server' scope dids) := by
  induction dids generalizing s with
  | nil => exact isolated_refl s
  | cons did dids ih =>
    exact (((stores_isContainer _ _).isolated).trans ((stores_fileSize _ _).isolated)).trans ih

/-! ### Calls -/

/-- What a text begins with, every longer one begins with. -/
theorem head?_append {a : Str} {c : Char} (h : a.head? = some c) (b : Str) :
    (a ++ b).head? = some c := by
  rw [List.head?_append, h, Option.some_or]

/-- The resources begin with a slash: that of the scopes, -/
theorem head?_scopes : "/scopes/".toList.head? = some '/' := by decide +kernel

/-- and those of DIDs. -/
theorem head?_dids (scope : Str) : ("/dids/".toList ++ scope ++ ['/']).head? = some '/' :=
  head?_append (head?_append (by decide +kernel) scope) ['/']

/-- **A listing of scopes concerns its user and its server.** -/
theorem isolated_rucioListScopes {scopes : List Str} (hmodes : RequestModes s.servers)
    (h : rucioListScopes io server caller s = .ok (scopes, t)) :
    Isolated io server caller.uid s t := by
  rcases rucioListScopes_eq_ok h with ⟨hfetch, -⟩ | ⟨expiry, -, -, rfl⟩
  · obtain ⟨payload, s₁, hexchanged, hend⟩ := fetchScopes_eq_ok hfetch
    have hfirst := hexchanged.isolated hmodes head?_scopes
    rcases hend with ⟨-, -, rfl⟩ | ⟨chunks, -, -, rfl⟩
    · exact hfirst
    · exact hfirst.trans (stores_setScopes server _).isolated
  · exact isolated_note_used _ _ _

/-- The fetch both DID listings share. -/
theorem isolated_fetchDids {dids : List RucioDid}
    {structurize : Str → Str → List RucioDid → Except Fault (Str × List RucioDid)}
    {store : State → ℤ × List RucioDid → State} (hmodes : RequestModes s.servers)
    (hresource : resource.head? = some '/')
    (hstore : ∀ u entry, Isolated io server caller.uid u (store u entry))
    (h : fetchDids io server scope resource caller structurize store s = .ok (dids, t)) :
    Isolated io server caller.uid s t := by
  obtain ⟨payload, s₁, hexchanged, hend⟩ := fetchDids_eq_ok h
  have hfirst := hexchanged.isolated hmodes hresource
  rcases hend with ⟨-, -, rfl⟩ | ⟨chunks, remainder, -, -, rfl⟩
  · exact hfirst
  · exact ((hfirst.trans (isolated_remainder remainder)).trans
      (isolated_primeLookups server dids)).trans (hstore _ _)

/-- **So does a listing of a scope,** -/
theorem isolated_rucioListDids {dids : List RucioDid} (hmodes : RequestModes s.servers)
    (h : rucioListDids io scope server caller s = .ok (dids, t)) :
    Isolated io server caller.uid s t := by
  rcases rucioListDids_eq_ok h with ⟨hfetch, -⟩ | ⟨expiry, -, -, rfl⟩
  · exact isolated_fetchDids hmodes (head?_dids scope)
      (fun _ entry ↦ (stores_setDids entry).isolated) hfetch
  · exact isolated_note_used _ _ _

/-- **a listing of a container,** -/
theorem isolated_rucioListContainerDids {dids : List RucioDid} (hmodes : RequestModes s.servers)
    (h : rucioListContainerDids io scope name server caller s = .ok (dids, t)) :
    Isolated io server caller.uid s t := by
  rcases rucioListContainerDids_eq_ok h with ⟨hfetch, -⟩ | ⟨expiry, -, -, rfl⟩
  · exact isolated_fetchDids hmodes (head?_append (head?_append (head?_dids scope) name) _)
      (fun _ entry ↦ (stores_setContainerDids entry).isolated) hfetch
  · exact isolated_note_used _ _ _

/-- **the question whether a path is a container,** -/
theorem isolated_rucioIsContainer {value : Bool} (hmodes : RequestModes s.servers)
    (h : rucioIsContainer io path caller s = .ok (value, t)) :
    Isolated io (extractServerName path) caller.uid s t := by
  obtain ⟨scope, name, -, ⟨found, -, -, rfl⟩ | ⟨-, payload, s₁, hexchanged, hend⟩⟩ :=
    rucioIsContainer_eq_ok h
  · exact isolated_note_used _ _ _
  · have hfirst := hexchanged.isolated hmodes (head?_append (head?_dids scope) name)
    rcases hend with ⟨-, -, rfl⟩ | ⟨front, rest, -, -, rfl⟩
    · exact hfirst
    · exact hfirst.trans (stores_isContainer path _).isolated

/-- **and the question for a size.** -/
theorem isolated_rucioGetSize {size : ℤ} (hmodes : RequestModes s.servers)
    (h : rucioGetSize io path caller s = .ok (size, t)) :
    Isolated io (extractServerName path) caller.uid s t := by
  obtain ⟨scope, name, -, ⟨found, -, -, rfl⟩ | ⟨-, payload, s₁, hexchanged, hend⟩⟩ :=
    rucioGetSize_eq_ok h
  · exact isolated_note_used _ _ _
  · have hfirst := hexchanged.isolated hmodes (head?_append (head?_dids scope) name)
    rcases hend with ⟨-, -, rfl⟩ | ⟨chunks, -, -, -, rfl⟩ | ⟨chunks, -, -, rfl⟩
    · exact hfirst
    · exact hfirst
    · exact hfirst.trans (stores_emplaceSize size).isolated

end Exchanges

end FusePosix
