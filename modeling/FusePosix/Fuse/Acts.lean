import FusePosix.Fuse.Startup
import FusePosix.Fuse.System
import FusePosix.Rest.Isolation

/-!
# For whom the program acts

Whatever the program does for a user at a server is one of a few things, one after the other: it
looks up the user's token, logs the user in, starts a login thread, sends one request for data with
the token that is stored at that moment, stores or uses a cache entry, or keeps a piece of a record
for later (`Act`). Every function of the REST client is a sequence of these (`Acts`), in each of the
authentication modes. While the process starts it also pings servers, and waits for logins; that
only happens then, so an act says whether the process is `starting`.

The requests are given here as they are sent, with their address, headers and certificates. So what
is true of each act is true of everything the client does, and what is true of the requests among
them is true of everything that leaves the machine.

A callback derives the name of the server from the path again and again, and all of these agree. So
everything a callback does is done for the user it is called for, at the server of the path. The
other steps of the mount are those of the download workers, which do not talk to servers by
themselves, and the ends of login threads (`StepDoes`).

The acts say more than who acts. A login needs a reason (`MayLogIn`), a listing is stored only when
the one before has expired (`StoredInTime`), and a request for data carries the token of its user.
The modules that build on this one each read one of these off: `FusePosix.Fuse.Secrets` the
requests, `FusePosix.Fuse.Economy` the reasons.

**Not claimed:** where a request goes when a server redirects it. An act names the request as it is
begun; the transfers that follow from it are in `Io.redirects` (`FusePosix.Rest.State`), and a
result about what leaves the machine has to take them into account.

**Assumed:** that one callback acts after the other, and that a login thread that ends finds the
arguments it was started with. `FusePosix.Fuse.System` says how the source differs.
-/

namespace FusePosix

open Relation

/-! ### The acts -/

/-- A request for a token, in the way the settings of the server name. -/
inductive LoginRequest (io : Io) (servers : ServerMap) (server : Str) : Request → Prop
  | userpass {params : ConnectionParameters}
      (hparams : getServerParams servers server = some params)
      (hmode : params.rucioAuthMode = .userpass) :
      LoginRequest io servers server (userpassRequest params).asSent
  | x509 {params : ConnectionParameters} {bundle : CurlX509Bundle}
      (hparams : getServerParams servers server = some params)
      (hmode : params.rucioAuthMode = .x509)
      (hbundle : getServerSSLBundle io.readFile servers server = some bundle) :
      LoginRequest io servers server (x509Request params bundle).asSent

/-- An entry is stored under a key. If that is the key of a listing, the one it replaces has
expired, and the new one lives as long as any. -/
structure StoredInTime (now : ℤ) (s t : State) (cache : CacheName) (key : Str) : Prop where
  due : ∀ query : Query, query.IsListing → query.cacheAndKey = (cache, key) →
    (∀ entry, s.expiring query = some entry → entry.1 < now) ∧
      ∃ answer, t.expiring query = some (now + chacheDuration, answer)
  others : ∀ query : Query, query.cacheAndKey ≠ (cache, key) → t.expiring query = s.expiring query

/-- Whether a user may be logged in: while the process starts, or if there is no valid token. -/
def MayLogIn (starting : Prop) (io : Io) (server : Str) (caller : Caller) (s : State) : Prop :=
  starting ∨ (s.tokenOf server caller.uid).validAt io.now = false

/-- One thing the client does for a user at a server. -/
inductive Act (starting : Prop) (io : Io) (server : Str) (caller : Caller) (s : State) :
    State → Prop
  | looked :
      Act starting io server caller s
        { s with servers := (getServerToken s.servers server caller.uid).2 }
  /-- A request for a token is sent, and the answer is read. -/
  | loggedIn {request : Request} (hrequest : LoginRequest io s.servers server request)
      (hneeded : MayLogIn starting io server caller s) :
      Act starting io server caller s
        (receiveToken io server caller.uid (io.net s.log request) (s.note (.sent request))).2
  | loginStarts {params : ConnectionParameters}
      (hparams : getServerParams s.servers server = some params)
      (hmode : params.rucioAuthMode = .oidc) (hneeded : MayLogIn starting io server caller s) :
      Act starting io server caller s { s with logins := s.logins ++ [⟨server, caller⟩] }
  | asked {params : ConnectionParameters} {resource : Str}
      (hparams : getServerParams s.servers server = some params)
      (hresource : resource.head? = some '/') :
      Act starting io server caller s (s.note (.sent (dataRequest params resource
        [tokenHeader (s.tokenOf server caller.uid).connToken]).asSent))
  | stored {t : State} {cache : CacheName} {entity : Entity} {key : Str}
      (hstores : Stores s t cache entity key) (hnames : t.serverNames = s.serverNames)
      (hlogins : t.logins = s.logins) (hintime : StoredInTime io.now s t cache key) :
      Act starting io server caller s t
  | used (cache : CacheName) (entity : Entity) (key : Str) :
      Act starting io server caller s (s.note (.used cache entity key))
  | pinged {params : ConnectionParameters} (hstarting : starting)
      (hparams : getServerParams s.servers server = some params) :
      Act starting io server caller s (s.note (.sent (pingRequest params).asSent))
  /-- A login that is waited for brings a token. -/
  | waited {params : ConnectionParameters} {t : State} (hstarting : starting)
      (hparams : getServerParams s.servers server = some params)
      (hmode : params.rucioAuthMode = .oidc)
      (hstore : storeOidcToken io server caller.uid (getOIDC io.oidc) s = .ok t) :
      Act starting io server caller s t
  | keptBack (remainder : Str) :
      Act starting io server caller s { s with didStringRemainder := remainder }

/-- Any number of acts. -/
abbrev Acts (starting : Prop) (io : Io) (server : Str) (caller : Caller) : State → State → Prop :=
  ReflTransGen (Act starting io server caller)

/-! ### What every act leaves alone -/

section Act

variable {starting : Prop} {io : Io} {server : Str} {caller : Caller} {s t : State}

/-- **No act touches the settings of a server.** -/
theorem Act.settings (h : Act starting io server caller s t) :
    SameSettings s.servers t.servers := by
  cases h with
  | looked => exact sameSettings_getServerToken s.servers server caller.uid
  | loggedIn => exact (quiet_receiveToken io server caller.uid _ _).settings
  | loginStarts | asked | used | pinged | keptBack => exact sameSettings_refl _
  | waited _ _ _ hstore => exact (quiet_storeOidcToken hstore).settings
  | stored hstores => exact hstores.servers ▸ sameSettings_refl _

/-- And none touches the list of servers. -/
theorem Act.serverNames (h : Act starting io server caller s t) :
    t.serverNames = s.serverNames := by
  cases h with
  | looked | loginStarts | asked | used | pinged | keptBack => rfl
  | loggedIn => exact (sameNames_receiveToken _).2
  | stored _ hnames => exact hnames
  | waited _ _ _ hstore =>
    obtain ⟨info, rfl⟩ := exists_of_storeOidcToken hstore
    rfl

/-- So the list of servers is the same after any number of acts. -/
theorem Acts.serverNames (h : Acts starting io server caller s t) :
    t.serverNames = s.serverNames := by
  induction h with
  | refl => rfl
  | tail _ hact ih => exact hact.serverNames.trans ih

/-- And so are the settings of each server. -/
theorem Acts.settings (h : Acts starting io server caller s t) :
    SameSettings s.servers t.servers := by
  induction h with
  | refl => exact sameSettings_refl _
  | tail _ hact ih => exact ih.trans hact.settings

/-- Reading an answer leaves no trace in the log: only requests and accesses to caches do. -/
theorem log_receiveToken {uid : ℕ} (ret : CurlRet) :
    (receiveToken io server uid ret s).2.log = s.log := by
  rw [receiveToken]
  split_ifs
  · rfl
  · split
    · rfl
    · split <;> rfl

/-- An act adds to the log at most one event. -/
theorem Act.log (h : Act starting io server caller s t) :
    t.log = s.log ∨ ∃ event, t.log = event :: s.log := by
  cases h with
  | looked | loginStarts | keptBack => exact Or.inl rfl
  | waited _ _ _ hstore =>
    obtain ⟨info, rfl⟩ := exists_of_storeOidcToken hstore
    exact Or.inl rfl
  | @loggedIn request => exact Or.inr ⟨.sent request, log_receiveToken _⟩
  | asked | used | pinged => exact Or.inr ⟨_, rfl⟩
  | stored hstores => exact Or.inr ⟨_, hstores.log⟩

/-- What has been noted stays noted. -/
theorem Act.log_suffix (h : Act starting io server caller s t) : s.log <:+ t.log := by
  rcases h.log with hlog | ⟨event, hlog⟩
  · exact hlog ▸ List.suffix_refl _
  · exact hlog ▸ List.suffix_cons event _

/-- The log only grows. -/
theorem Acts.log_suffix (h : Acts starting io server caller s t) : s.log <:+ t.log := by
  induction h with
  | refl => exact List.suffix_refl _
  | tail _ hact ih => exact ih.trans hact.log_suffix

end Act

/-! ### Authentication -/

section Authentication

variable {starting : Prop} {io : Io} {server : Str} {caller : Caller} {s t : State}

/-- Looking a token up does not change it. -/
theorem tokenOf_looked (s : State) (server : Str) (uid : ℕ) :
    ({ s with servers := (getServerToken s.servers server uid).2 } : State).tokenOf server uid =
      s.tokenOf server uid := by
  rcases hfind : s.servers.find server with - | srv
  · rw [getServerToken, hfind]
  · rw [getServerToken_of_find hfind, tokenOf_storeToken_self hfind, tokenOf_of_find hfind]

/-- The check of a token says whether it is valid, and does not change it. -/
theorem rucioIsTokenValid_eq (s : State) (server : Str) (uid : ℕ) :
    (rucioIsTokenValid io server uid s).1 = (s.tokenOf server uid).validAt io.now ∧
      (rucioIsTokenValid io server uid s).2.tokenOf server uid = s.tokenOf server uid := by
  have hlooked := tokenOf_looked s server uid
  rw [rucioIsTokenValid]
  -- a server that is not known has no token, and the empty one is not valid
  rcases hfind : s.servers.find server with - | srv
  · rw [getServerToken, hfind, State.tokenOf, hfind]
    exact ⟨rfl, rfl⟩
  · rw [getServerToken_of_find hfind] at hlooked ⊢
    rw [tokenOf_of_find hfind] at hlooked ⊢
    exact ⟨rfl, hlooked⟩

/-- A token that has been found invalid is a reason to log in, and it is still invalid then. -/
theorem mayLogIn_of_not_valid (h : ¬(rucioIsTokenValid io server caller.uid s).1 = true) :
    MayLogIn starting io server caller (rucioIsTokenValid io server caller.uid s).2 := by
  obtain ⟨hvalid, hsame⟩ := @rucioIsTokenValid_eq io s server caller.uid
  rw [hvalid, Bool.not_eq_true] at h
  exact Or.inr (hsame.symm ▸ h)

/-- A token is checked by looking it up. -/
theorem acts_rucioIsTokenValid (s : State) :
    Acts starting io server caller s (rucioIsTokenValid io server caller.uid s).2 := by
  rw [rucioIsTokenValid]
  have hlooked : Act starting io server caller s _ := .looked
  split
  · exact .refl
  · rename_i info servers htoken
    rw [htoken] at hlooked
    exact .single hlooked

/-- **Asking for a token is a login, or the start of one.** -/
theorem acts_requestToken {params : ConnectionParameters} {result : AuthResult}
    (hparams : getServerParams s.servers server = some params)
    (hneeded : MayLogIn starting io server caller s)
    (h : requestToken io params.rucioAuthMode server caller s = .ok (result, t)) :
    Acts starting io server caller s t := by
  -- the four modes, in the order of the source; the last one asks nobody
  rcases hmode : params.rucioAuthMode with - | - | - | -
  · rw [hmode, requestToken, rucioGetAuthTokenUserpass, hparams] at h
    obtain rfl : _ = t := congrArg Prod.snd (Except.ok.inj h)
    exact .single (.loggedIn (.userpass hparams hmode) hneeded)
  · rw [hmode, requestToken, rucioGetAuthTokenX509, hparams] at h
    obtain ⟨bundle, hbundle, h⟩ := bind_eq_ok.1 h
    obtain rfl : _ = t := congrArg Prod.snd (Except.ok.inj h)
    exact .single (.loggedIn (.x509 hparams hmode (deref_eq_ok hbundle)) hneeded)
  · rw [hmode, requestToken, rucioGetAuthTokenOidc, hparams] at h
    obtain ⟨bundle, -, h⟩ := bind_eq_ok.1 h
    -- a thread is started, if one can be, and there is no token yet
    simp only [if_true, getOIDCAsync, List.length_nil] at h
    obtain rfl := (congrArg Prod.snd (Except.ok.inj h) : _ = t)
    have hlooked : Act starting io server caller s
        { s with servers := (getServerToken s.servers server caller.uid).2 } := .looked
    split_ifs
    · exact .tail (.single hlooked)
        (.loginStarts ((hlooked.settings.getServerParams server).trans hparams) hmode
          (hneeded.imp_right fun hinvalid ↦
            (tokenOf_looked s server caller.uid).symm ▸ hinvalid))
    · exact .single hlooked
  · rw [hmode, requestToken] at h
    obtain ⟨-, rfl⟩ := Prod.mk.inj (Except.ok.inj h)
    exact .refl

/-- **The gate logs the caller in at the server of the path, and nobody else anywhere.** -/
theorem acts_authenticateUser {path : Str} {result : AuthResult}
    (h : authenticateUser io path caller s = .ok (result, t)) :
    Acts starting io (extractServerName path) caller s t := by
  have hvalid := @acts_rucioIsTokenValid starting io (extractServerName path) caller s
  simp only [authenticateUser] at h
  split_ifs at h with hv
  · obtain rfl : _ = t := congrArg Prod.snd (Except.ok.inj h)
    exact hvalid
  · split at h
    · obtain rfl : _ = t := congrArg Prod.snd (Except.ok.inj h)
      exact hvalid
    · rename_i params hparams
      exact hvalid.trans (acts_requestToken hparams (mayLogIn_of_not_valid hv) h)

/-- **The headers of a request carry the token that is stored when they are made.** -/
theorem acts_getAuthHeaders {headers : Option (List Str)}
    (h : getAuthHeaders io server caller s = .ok (headers, t)) :
    Acts starting io server caller s t ∧ ∀ fields, headers = some fields →
      fields = [tokenHeader (t.tokenOf server caller.uid).connToken] := by
  rw [getAuthHeaders] at h
  have hlooked : Act starting io server caller s _ := .looked
  split at h
  · rename_i params info servers hparams htoken
    rw [htoken] at hlooked
    have hvalid := (ReflTransGen.single hlooked).trans
      (@acts_rucioIsTokenValid starting io server caller { s with servers })
    simp only at h
    -- a valid token goes into the header as it is, and otherwise the one that is stored after the
    -- login
    split_ifs at h with hv
    · obtain ⟨rfl, rfl⟩ := Prod.mk.inj (Except.ok.inj h)
      exact ⟨hvalid, fun fields hfields ↦ (Option.some.inj hfields).symm⟩
    · obtain ⟨u, hu, h⟩ := bind_eq_ok.1 h
      obtain ⟨⟨result, u'⟩, hrequest, rfl⟩ := map_eq_ok hu
      obtain ⟨rfl, rfl⟩ := Prod.mk.inj (Except.ok.inj h)
      obtain ⟨params', hparams', hrequest⟩ := bind_eq_ok.1 hrequest
      exact ⟨hvalid.trans (acts_requestToken (deref_eq_ok hparams') (mayLogIn_of_not_valid hv)
          hrequest),
        fun fields hfields ↦ (Option.some.inj hfields).symm⟩
  · obtain ⟨rfl, rfl⟩ := Prod.mk.inj (Except.ok.inj h)
    exact ⟨.refl, fun fields hfields ↦ absurd hfields.symm (Option.some_ne_none fields)⟩

end Authentication

/-! ### Calls -/

section Calls

variable {starting : Prop} {io : Io} {server scope name resource path : Str} {caller : Caller}
  {s t : State}

/-- A request for data is sent with the header that has just been made: the header is made of the
token that is stored then, and nothing happens in between. -/
theorem Asked.acts {request : Request} {s₁ : State}
    (h : Asked io server resource caller s request s₁) (hresource : resource.head? = some '/') :
    Acts starting io server caller s (s₁.note (.sent request)) := by
  obtain ⟨fields, hheaders, params, hparams, rfl⟩ := h.headers
  obtain ⟨hacts, hfields⟩ := acts_getAuthHeaders hheaders
  rw [hfields fields rfl]
  exact hacts.tail (.asked ((hacts.settings.getServerParams server).trans hparams) hresource)

/-- So an exchange is a sequence of acts, however it ends. -/
theorem Exchanged.acts {payload : Option (List Str)}
    (h : Exchanged io server resource caller s payload t) (hresource : resource.head? = some '/') :
    Acts starting io server caller s t := by
  rcases h with - | ⟨hasked, -⟩ | ⟨hasked, -⟩
  · exact .refl
  · exact hasked.acts hresource
  · exact hasked.acts hresource

/-- The resource of a DID begins with a slash, like all of them. -/
theorem head?_didResource (scope name : Str) : (didResource scope name).head? = some '/' :=
  head?_append (head?_dids scope) name

/-- What is stored about a single DID has nothing to do with listings. -/
theorem storedInTime_lookup {now : ℤ} {cache : CacheName} {key : Str}
    (hcache : cache ≠ .scopes ∧ cache ≠ .dids ∧ cache ≠ .containerDids)
    (hexpiring : t.expiring = s.expiring) : StoredInTime now s t cache key where
  due query hlisting hkey := by
    have hname := congrArg Prod.fst hkey
    cases query with
    | scopes => exact absurd hname.symm hcache.1
    | dids => exact absurd hname.symm hcache.2.1
    | containerDids => exact absurd hname.symm hcache.2.2
    | isContainer | size => cases hlisting
  others query _ := congrFun hexpiring query

/-- Listings under one key share their entry. -/
theorem expiring_eq_of_cacheAndKey {query other : Query} (hquery : query.IsListing)
    (hother : other.IsListing) (h : query.cacheAndKey = other.cacheAndKey) :
    s.expiring query = s.expiring other := by
  cases query <;> cases other <;>
    simp_all [Query.IsListing, Query.cacheAndKey, State.expiring]

/-- A listing is stored where the one before has expired. -/
theorem storedInTime_listing {now : ℤ} {query : Query} {answer : Answer}
    (hexpired : ∀ entry, s.expiring query = some entry → entry.1 < now)
    (hstore : ∀ other : Query, t.expiring other =
      if other.cacheAndKey = query.cacheAndKey then some (now + chacheDuration, answer)
      else s.expiring other)
    (hlisting : query.IsListing) :
    StoredInTime now s t query.cacheAndKey.1 query.cacheAndKey.2 where
  due other hother heq :=
    ⟨fun entry hentry ↦ hexpired entry
      ((expiring_eq_of_cacheAndKey hother hlisting heq).symm.trans hentry), answer,
      (hstore other).trans (if_pos heq)⟩
  others other hne := (hstore other).trans (if_neg hne)

/-- A listing of DIDs is stored in time if the one before has expired. -/
theorem StoresListing.storedInTime {now : ℤ} {query : Query}
    {store : State → ℤ × List RucioDid → State} (hstore : StoresListing query store)
    (hlisting : query.IsListing)
    (hstale : ∀ entry, s.expiring query = some entry → entry.1 < now) (dids : List RucioDid) :
    StoredInTime now s (store s (now + chacheDuration, dids)) query.cacheAndKey.1
      query.cacheAndKey.2 :=
  storedInTime_listing hstale (hstore.expiring s (now + chacheDuration, dids)) hlisting

/-- What a listing tells the lookups about one record is two entries. Neither of them replaces a
listing. -/
theorem acts_primeLookup (server' : Str) (did : RucioDid) (s : State) :
    Acts starting io server caller s (s.primeLookup server' scope did) := by
  have hkind := @stores_isContainer s [server', scope, did.name]
    (cacheKey [server', scope, did.name]) (did.type.map fun type ↦ decide (type ≠ .rucioFile))
  refine (ReflTransGen.single (.stored hkind rfl rfl ?_)).tail
    (.stored (stores_fileSize _ did.size) rfl rfl ?_)
  · exact storedInTime_lookup ⟨by decide, by decide, by decide⟩
      (expiring_eq_of_caches rfl rfl rfl)
  · exact storedInTime_lookup ⟨by decide, by decide, by decide⟩
      (expiring_eq_of_caches rfl rfl rfl)

/-- What a listing tells the lookups is a sequence of such entries. -/
theorem acts_primeLookups (server' : Str) (dids : List RucioDid) : ∀ s : State,
    Acts starting io server caller s (s.primeLookups server' scope dids) := by
  induction dids with
  | nil => exact fun s ↦ .refl
  | cons did dids ih =>
    exact fun s ↦ (acts_primeLookup server' did s).trans (ih (s.primeLookup server' scope did))

/-- **The scopes of a server are used, or asked for and stored**, and then the ones before have
expired. -/
theorem acts_rucioListScopes {scopes : List Str}
    (h : rucioListScopes io server caller s = .ok (scopes, t)) :
    Acts starting io server caller s t := by
  rcases rucioListScopes_eq_ok h with ⟨hfetch, hstale⟩ | ⟨expiry, -, -, rfl⟩
  · obtain ⟨payload, s₁, hexchanged, hend⟩ := fetchScopes_eq_ok hfetch
    have hfirst : Acts starting io server caller s s₁ := hexchanged.acts head?_scopes
    rcases hend with ⟨-, -, rfl⟩ | ⟨chunks, -, -, rfl⟩
    · exact hfirst
    -- the exchange in between has not touched the cache, so what had expired still has
    · have hstale' : ∀ entry, s₁.expiring (.scopes server) = some entry → entry.1 < io.now := by
        rw [hexchanged.expiring]
        exact stale_of_find hstale
      exact hfirst.tail (.stored (stores_setScopes server _) rfl rfl
        (storedInTime_listing hstale' (expiring_setScopes server _) trivial))
  · exact .single (.used _ _ _)

/-- The fetch both DID listings share. -/
theorem acts_fetchDids {dids : List RucioDid} {entity : Entity} {query : Query}
    {structurize : Str → Str → List RucioDid → Except Fault (Str × List RucioDid)}
    {store : State → ℤ × List RucioDid → State} (hresource : resource.head? = some '/')
    (hlisting : query.IsListing)
    (hstale : ∀ entry, s.expiring query = some entry → entry.1 < io.now)
    (hstores : ∀ u entry,
      Stores u (store u entry) query.cacheAndKey.1 entity query.cacheAndKey.2)
    (hframe : ∀ u entry, (store u entry).serverNames = u.serverNames ∧
      (store u entry).logins = u.logins)
    (hstore : StoresListing query store)
    (h : fetchDids io server scope resource caller structurize store s = .ok (dids, t)) :
    Acts starting io server caller s t := by
  obtain ⟨payload, s₁, hexchanged, hend⟩ := fetchDids_eq_ok h
  have hfirst : Acts starting io server caller s s₁ := hexchanged.acts hresource
  rcases hend with ⟨-, -, rfl⟩ | ⟨chunks, remainder, -, -, rfl⟩
  · exact hfirst
  -- telling the lookups does not touch the listings, and neither does the exchange
  obtain ⟨-, -, hexpiring⟩ :=
    primeLookups_frame server scope dids { s₁ with didStringRemainder := remainder }
  have hsame : (({ s₁ with didStringRemainder := remainder } : State).primeLookups server scope
      dids).expiring = s.expiring :=
    (hexpiring.trans (expiring_eq_of_caches rfl rfl rfl)).trans hexchanged.expiring
  exact ((hfirst.tail (.keptBack remainder)).trans (acts_primeLookups server dids _)).tail
    (.stored (hstores _ _) (hframe _ _).1 (hframe _ _).2
      (hstore.storedInTime hlisting (hsame ▸ hstale) dids))

/-- **So it is with the content of a scope.** -/
theorem acts_rucioListDids {dids : List RucioDid}
    (h : rucioListDids io scope server caller s = .ok (dids, t)) :
    Acts starting io server caller s t := by
  rcases rucioListDids_eq_ok h with ⟨hfetch, hstale⟩ | ⟨expiry, -, -, rfl⟩
  · exact acts_fetchDids (head?_dids scope) (show (Query.dids server scope).IsListing from
      trivial) (stale_of_find hstale) (fun _ entry ↦ stores_setDids entry) (fun _ _ ↦ ⟨rfl, rfl⟩)
      (storesListing_setDids server scope) hfetch
  · exact .single (.used _ _ _)

/-- **And with that of a container.** -/
theorem acts_rucioListContainerDids {dids : List RucioDid}
    (h : rucioListContainerDids io scope name server caller s = .ok (dids, t)) :
    Acts starting io server caller s t := by
  rcases rucioListContainerDids_eq_ok h with ⟨hfetch, hstale⟩ | ⟨expiry, -, -, rfl⟩
  · exact acts_fetchDids (head?_append (head?_didResource scope name) _)
      (show (Query.containerDids server scope name).IsListing from trivial)
      (stale_of_find hstale) (fun _ entry ↦ stores_setContainerDids entry) (fun _ _ ↦ ⟨rfl, rfl⟩)
      (storesListing_setContainerDids server scope name) hfetch
  · exact .single (.used _ _ _)

/-- A lookup uses its entry, or asks at the server that the path names. -/
theorem acts_rucioIsContainer {value : Bool}
    (h : rucioIsContainer io path caller s = .ok (value, t)) :
    Acts starting io (extractServerName path) caller s t := by
  obtain ⟨scope, name, -, ⟨found, -, -, rfl⟩ | ⟨-, payload, s₁, hexchanged, hend⟩⟩ :=
    rucioIsContainer_eq_ok h
  · exact .single (.used _ _ _)
  · have hfirst : Acts starting io (extractServerName path) caller s s₁ :=
      hexchanged.acts (head?_didResource scope name)
    rcases hend with ⟨-, -, rfl⟩ | ⟨front, rest, -, -, rfl⟩
    · exact hfirst
    · exact hfirst.tail (.stored (stores_isContainer path _) rfl rfl
        (storedInTime_lookup ⟨by decide, by decide, by decide⟩
          (expiring_eq_of_caches rfl rfl rfl)))

/-- A size is used, or asked for, and stored if it can be read. -/
theorem acts_rucioGetSize {size : ℤ} (h : rucioGetSize io path caller s = .ok (size, t)) :
    Acts starting io (extractServerName path) caller s t := by
  obtain ⟨scope, name, -, ⟨found, -, -, rfl⟩ | ⟨-, payload, s₁, hexchanged, hend⟩⟩ :=
    rucioGetSize_eq_ok h
  · exact .single (.used _ _ _)
  · have hfirst : Acts starting io (extractServerName path) caller s s₁ :=
      hexchanged.acts (head?_didResource scope name)
    rcases hend with ⟨-, -, rfl⟩ | ⟨chunks, -, -, -, rfl⟩ | ⟨chunks, -, -, rfl⟩
    · exact hfirst
    · exact hfirst
    · exact hfirst.tail (.stored (stores_emplaceSize size) rfl rfl
        (storedInTime_lookup ⟨by decide, by decide, by decide⟩
          (expiring_eq_of_caches rfl rfl rfl)))

end Calls

/-! ### Callbacks -/

section Callbacks

variable {starting : Prop} {io : Io} {path : Str} {caller : Caller} {s t : State} {m m' : Mount}

/-- The root needs no login, and otherwise the gate logs the caller in. -/
theorem acts_authGate {authenticated : Bool}
    (h : authGate io path caller s = .ok (authenticated, t)) :
    Acts starting io (extractServerName path) caller s t := by
  rw [authGate] at h
  split_ifs at h with hroot
  · obtain ⟨-, rfl⟩ := Prod.mk.inj (Except.ok.inj h)
    exact .refl
  · obtain ⟨⟨result, s₁⟩, hauth, hret⟩ := bind_eq_ok.1 h
    obtain ⟨-, rfl⟩ := Prod.mk.inj (Except.ok.inj hret)
    exact acts_authenticateUser hauth

/-- However `rucio_getattr` ends, it has acted for its caller at the server of its path, -/
theorem GetattrEnds.acts {st : Stat} {result : ℤ × Stat}
    (h : GetattrEnds io path caller st s result t) :
    Acts starting io (extractServerName path) caller s t := by
  induction h with
  | root | unknownServer => exact .refl
  | server _ _ _ hscopes => exact acts_rucioListScopes hscopes
  | unknownScope _ _ _ hscopes => exact acts_rucioListScopes hscopes
  | scope _ _ _ hscopes _ hdids =>
    exact (acts_rucioListScopes hscopes).trans (acts_rucioListDids hdids)
  | container _ _ _ _ hcontainer _ _ hdids =>
    exact (acts_rucioIsContainer hcontainer).trans (acts_rucioListContainerDids hdids)
  | file _ _ _ _ hcontainer hsize =>
    exact (acts_rucioIsContainer hcontainer).trans (acts_rucioGetSize hsize)

/-- and so has `rucio_readdir` -/
theorem ReaddirEnds.acts {listed : ℤ × List Str} (h : ReaddirEnds io path caller s listed t) :
    Acts starting io (extractServerName path) caller s t := by
  induction h with
  | skipped | root => exact .refl
  | server _ _ _ hscopes => exact acts_rucioListScopes hscopes
  | scope _ _ _ _ hdids => exact acts_rucioListDids hdids
  | container _ _ _ _ _ hcontainer _ _ hdids =>
    exact (acts_rucioIsContainer hcontainer).trans (acts_rucioListContainerDids hdids)
  | file _ _ _ _ _ hcontainer => exact acts_rucioIsContainer hcontainer

/-- and the checks in front of a read. -/
theorem ChecksEnd.acts {checked : Checked} (h : ChecksEnd io path caller s checked t) :
    Acts starting io (extractServerName path) caller s t := by
  induction h with
  | refused hgate | directory hgate => exact acts_authGate hgate
  | container hgate hcontainer | file hgate hcontainer =>
    exact (acts_authGate hgate).trans (acts_rucioIsContainer hcontainer)

/-- Reading a file that is there asks for its size, for the caller of the read. -/
theorem acts_readFile {wanted : Wanted} {size : ℕ} {offset : ℤ} {result : ℤ × Str}
    (h : readFile io wanted caller size offset m = .ok (result, m')) :
    Acts starting io (extractServerName wanted.path) caller m.rest m'.rest := by
  obtain ⟨⟨fileSize, m₁⟩, hcall, h⟩ := bind_eq_ok.1 h
  obtain ⟨t, hsize, rfl⟩ := onRest_eq_ok hcall
  have hacts : Acts starting io (extractServerName wanted.path) caller m.rest t :=
    acts_rucioGetSize hsize
  simp only at h
  split_ifs at h with hoffset
  · obtain ⟨-, rfl⟩ := Prod.mk.inj (Except.ok.inj h)
    exact hacts
  · obtain ⟨content, -, h⟩ := bind_eq_ok.1 h
    obtain ⟨-, rfl⟩ := Prod.mk.inj (Except.ok.inj h)
    exact hacts

/-- **`rucio_getattr` acts for its caller at the server of its path.** -/
theorem acts_rucioGetattr {st : Stat} {result : ℤ × Stat}
    (h : rucioGetattr io path caller st m = .ok (result, m')) :
    Acts starting io (extractServerName path) caller m.rest m'.rest := by
  rcases getattrRuns_of_eq_ok h with - | hgate | ⟨-, -, hgate, hends⟩
  · exact .refl
  · exact acts_authGate hgate
  · exact (acts_authGate hgate).trans hends.acts

/-- **So does `rucio_readdir`.** -/
theorem acts_rucioReaddir {listed : ℤ × List Str}
    (h : rucioReaddir io path caller m = .ok (listed, m')) :
    Acts starting io (extractServerName path) caller m.rest m'.rest := by
  rcases readdirRuns_of_eq_ok h with hgate | ⟨hgate, hends⟩
  · exact acts_authGate hgate
  · exact (acts_authGate hgate).trans hends.acts

/-- **So does `rucio_read`**, which asks for a file that is not there by putting a job into the
pipeline. -/
theorem acts_rucioRead {size : ℕ} {offset : ℤ} {result : ℤ × Str}
    (h : rucioRead io path caller size offset m = .ok (result, m')) :
    Acts starting io (extractServerName path) caller m.rest m'.rest := by
  obtain ⟨⟨checked, m₁⟩, hcall, h⟩ := bind_eq_ok.1 h
  obtain ⟨t, hchecks, rfl⟩ := onRest_eq_ok hcall
  have hacts : Acts starting io (extractServerName path) caller m.rest t :=
    (checksEnd_of_eq_ok hchecks).acts
  rcases readChecks_eq_ok hchecks with ⟨answer, rfl, -⟩ | ⟨wanted, rfl, hwanted⟩
  · obtain ⟨-, rfl⟩ := Prod.mk.inj (Except.ok.inj h)
    exact hacts
  -- the file cache, the flags and the pipeline have nothing to do with servers
  simp only at h
  split_ifs at h with hcached hdownloading
  · obtain ⟨-, rfl⟩ := Prod.mk.inj (Except.ok.inj h)
    exact hacts
  · obtain ⟨info, -, h⟩ := bind_eq_ok.1 h
    obtain ⟨-, rfl⟩ := Prod.mk.inj (Except.ok.inj h)
    exact hacts
  · rw [← (wantedOf_eq_ok hwanted).1] at hacts ⊢
    exact hacts.trans (acts_readFile h)

end Callbacks

/-! ### Starting -/

section Starting

variable {io : Io} {server : Str} {caller : Caller} {s t : State}

/-- The first login at a server is a request, or a login that is waited for. It needs no reason but
that the process starts. -/
theorem acts_rucioGetAuthTokenRoot {result : AuthResult}
    (h : rucioGetAuthTokenRoot io server caller s = .ok (result, t)) :
    Acts True io server caller s t := by
  obtain ⟨params, hparams, h⟩ := bind_eq_ok.1 h
  have hparams := deref_eq_ok hparams
  rcases hmode : params.rucioAuthMode with - | - | - | -
  · rw [hmode] at h
    exact acts_requestToken hparams (Or.inl trivial) (by rwa [hmode])
  · rw [hmode] at h
    exact acts_requestToken hparams (Or.inl trivial) (by rwa [hmode])
  · rw [hmode] at h
    simp only [rucioGetAuthTokenOidc, hparams] at h
    obtain ⟨bundle, -, h⟩ := bind_eq_ok.1 h
    simp only [Bool.false_eq_true, if_false] at h
    -- the login is waited for; if it brings nothing, nothing is stored
    split_ifs at h with hempty
    · obtain ⟨-, rfl⟩ := Prod.mk.inj (Except.ok.inj h)
      exact .refl
    · have hlooked : Act True io server caller s _ := .looked
      split at h
      · obtain ⟨-, rfl⟩ := Prod.mk.inj (Except.ok.inj h)
        exact .refl
      · rename_i info servers htoken
        rw [htoken] at hlooked
        obtain ⟨u, hstore, hret⟩ := bind_eq_ok.1 h
        obtain ⟨-, rfl⟩ := Prod.mk.inj (Except.ok.inj hret)
        exact (ReflTransGen.single hlooked).tail (.waited trivial
          ((hlooked.settings.getServerParams server).trans hparams) hmode hstore)
  · rw [hmode] at h
    obtain ⟨-, rfl⟩ := Prod.mk.inj (Except.ok.inj h)
    exact .refl

/-- **A server is validated by a ping, and a login.** -/
theorem acts_rucioValidateServer {validated : Bool}
    (h : rucioValidateServer io server caller s = .ok (validated, t)) :
    Acts True io server caller s t := by
  obtain ⟨⟨reached, s₁⟩, hping, h⟩ := bind_eq_ok.1 h
  obtain ⟨params, hparams, hping⟩ := bind_eq_ok.1 hping
  obtain ⟨rfl, rfl⟩ := Prod.mk.inj (Except.ok.inj hping)
  -- the ping comes first, and only a server that answers is logged in to
  have hpinged : Act True io server caller s _ := .pinged trivial (deref_eq_ok hparams)
  simp only at h
  split_ifs at h with hreached
  · obtain ⟨-, rfl⟩ := Prod.mk.inj (Except.ok.inj h)
    exact .single hpinged
  · obtain ⟨⟨result, s₂⟩, hroot, hret⟩ := bind_eq_ok.1 h
    obtain ⟨-, rfl⟩ := Prod.mk.inj (Except.ok.inj hret)
    exact (ReflTransGen.single hpinged).trans (acts_rucioGetAuthTokenRoot hroot)

end Starting

/-! ### Steps of the mount -/

/-- The callback of a step: what it meets, the path, and whose call it is. -/
def MountAction.call : MountAction → Option (Io × Str × Caller)
  | .read call => some (call.io, call.path, call.caller)
  | .background (.getattr io path caller _) => some (io, path, caller)
  | .background (.readdir io path caller) => some (io, path, caller)
  | .background (.work _) => none
  | .background (.loginEnds _ _) => none

/-- What a step of the mount does to the state of the REST client. -/
inductive StepDoes (m : Mount) (a : MountAction) (m' : Mount) : Prop
  | callback {io : Io} {path : Str} {caller : Caller} (hcall : a.call = some (io, path, caller))
      (hacts : Acts False io (extractServerName path) caller m.rest m'.rest)
  | work {w : WorkerAction} (ha : a = .background (.work w)) (hrest : m'.rest = m.rest)
  | loginEnds {io : Io} {k : ℕ} (ha : a = .background (.loginEnds io k))
      (hends : oidcLoginEnds io k m.rest = .ok m'.rest)

/-- **Every step acts for one user at one server**, works on a download, or ends a login. -/
theorem stepDoes_of_step {m m' : Mount} {a : MountAction} (h : m.step a = some m') :
    StepDoes m a m' := by
  -- the three callbacks act, a worker leaves the client alone, and the end of a login is by itself
  rcases a with call | ⟨io, path, caller, st⟩ | ⟨io, path, caller⟩ | w | ⟨io, k⟩
  · obtain ⟨⟨result, m₁⟩, hrun, rfl⟩ := map_toOption_eq_some h
    exact .callback rfl (acts_rucioRead hrun)
  · obtain ⟨⟨result, m₁⟩, hrun, rfl⟩ := map_toOption_eq_some h
    exact .callback rfl (acts_rucioGetattr hrun)
  · obtain ⟨⟨result, m₁⟩, hrun, rfl⟩ := map_toOption_eq_some h
    exact .callback rfl (acts_rucioReaddir hrun)
  · obtain ⟨pipeline, -, rfl⟩ := Option.map_eq_some_iff.1 h
    exact .work rfl rfl
  · obtain ⟨rest, hends, rfl⟩ := map_toOption_eq_some h
    exact .loginEnds rfl hends

end FusePosix
