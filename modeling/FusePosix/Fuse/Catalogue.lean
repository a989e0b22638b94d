import FusePosix.Fuse.Agreement
import FusePosix.Fuse.Startup

/-!
# What the servers can have told

The caches of the REST client hold what the servers have answered at some time. A `Catalogue` is
what the servers have, and `Tells` says of a world that no server answers anything else. Then
everything in the caches is in the catalogue as well (`Told`), up to cache keys: an entry is found
by the names of a query written one behind the other, and may have been stored for another one.

Each call of the client keeps this, and what it returns is in the catalogue (`Told.rucioListScopes`,
`Told.rucioListDids`, `Told.rucioListContainerDids`, `Told.rucioIsContainer`).
-/

namespace FusePosix

/-! ### What the servers have -/

/-- The scope of a listing of DIDs. -/
def Query.scope : Query → Str
  | .dids _ scope => scope
  | .containerDids _ scope _ => scope
  | _ => []

/-- The DIDs of a listing. -/
def Answer.listedDids : Answer → List RucioDid
  | .dids listed => listed
  | _ => []

/-- A listing that a path leads to. -/
inductive Query.OfPath : Query → Prop
  | scopes (c : Component) : OfPath (.scopes c.text)
  | dids (c e : Component) (cs : List Component) : OfPath (listingOf c e cs)

/-- What the servers have: names of scopes, DIDs, and what is attached to what. There are finitely
many names. -/
structure Catalogue where
  /-- A name is in a listing: that of the scopes of a server, of the DIDs of a scope, or of the DIDs
  that are attached to a container. -/
  shows : Query → Str → Prop
  /-- A DID of a server is a container or a dataset. It is given by its scope and its name. -/
  container : Str → Str → Str → Prop
  /-- What the parser may have left over of an answer. -/
  residue : Str → Prop
  finite_names : {name | ∃ query, shows query name}.Finite
  residue_nil : residue []

namespace Catalogue

/-- A list of names in listings has finitely many names. -/
theorem finite_names_of_list (entries : List (Query × Str)) :
    {name | ∃ query, (query, name) ∈ entries}.Finite := by
  refine (entries.map Prod.snd).finite_toSet.subset ?_
  rintro name ⟨query, hmem⟩
  exact List.mem_map.2 ⟨(query, name), hmem, rfl⟩

/-- A world whose servers answer nothing that is not in the catalogue. They may fail at any time,
and need not tell everything. -/
structure Tells (catalogue : Catalogue) (servers : ServerMap) (io : Io) : Prop where
  listing : ∀ (query : Query) (params : ConnectionParameters) (log : List Event)
    (request : Request), query.OfPath → getServerParams servers query.server = some params →
    request.url = cStr (params.serverUrl ++ query.resource) → (io.net log request).ok = true →
    ∀ (remainder : Str) (parsed : Str × Answer), catalogue.residue remainder →
      query.parseChunks remainder (io.net log request).payload = .ok parsed →
      catalogue.residue parsed.1 ∧ (∀ name ∈ parsed.2.names, catalogue.shows query name) ∧
        ∀ d ∈ parsed.2.listedDids, d.type = some .rucioFile ∨
          catalogue.container query.server query.scope d.name
  record : ∀ (c e n : Component) (params : ConnectionParameters) (log : List Event)
    (request : Request), getServerParams servers c.text = some params →
    request.url = cStr (params.serverUrl ++ didResource e.text n.text) →
    (io.net log request).ok = true → ∀ front ∈ (io.net log request).payload.head?,
      saysContainer front = true → catalogue.container c.text e.text n.text

/-- A name is in a listing, or in one with the same cache key. -/
def Lists (catalogue : Catalogue) (query : Query) (name : Str) : Prop :=
  ∃ other, other.cacheAndKey = query.cacheAndKey ∧ catalogue.shows other name

/-- A DID, or one with the same cache key, is a container. -/
def Taken (catalogue : Catalogue) (c e d : Component) : Prop :=
  ∃ server scope name, catalogue.container server scope name ∧
    cacheKey [server, scope, name] = cacheKey [c.text, e.text, d.text]

end Catalogue

/-! ### The list of servers -/

section ServerNames

variable {io : Io} {server resource path : Str} {caller : Caller} {s t : State}

theorem serverNames_rucioIsTokenValid (io : Io) (server : Str) (uid : ℕ) (s : State) :
    (rucioIsTokenValid io server uid s).2.serverNames = s.serverNames := by
  rw [rucioIsTokenValid]
  split <;> rfl

theorem serverNames_requestToken {mode : AuthMode} {result : AuthResult}
    (h : requestToken io mode server caller s = .ok (result, t)) :
    t.serverNames = s.serverNames := by
  rcases eq_or_ne mode .oidc with rfl | hmode
  · simp only [requestToken, rucioGetAuthTokenOidc] at h
    split at h
    · obtain ⟨-, rfl⟩ := Prod.mk.inj (Except.ok.inj h)
      rfl
    · obtain ⟨bundle, -, h⟩ := bind_eq_ok.1 h
      -- there is no token before the login ends
      replace h : Except.ok (AuthResult.tokenError, (getOIDCAsync io server caller
          { s with servers := (getServerToken s.servers server caller.uid).2 }).2) =
        Except.ok (result, t) := h
      obtain rfl : _ = t := congrArg Prod.snd (Except.ok.inj h)
      show (if io.threadStarts then _ else _ : State).serverNames = _
      split_ifs <;> rfl
  · exact (sameNames_requestToken hmode h).2

theorem serverNames_getAuthHeaders {headers : Option (List Str)}
    (h : getAuthHeaders io server caller s = .ok (headers, t)) : t.serverNames = s.serverNames := by
  rw [getAuthHeaders] at h
  split at h
  · rename_i params info servers hparams htoken
    simp only at h
    have hvalid := serverNames_rucioIsTokenValid io server caller.uid { s with servers }
    split_ifs at h with hv
    · obtain rfl : _ = t := congrArg Prod.snd (Except.ok.inj h)
      exact hvalid
    · obtain ⟨u, hu, h⟩ := bind_eq_ok.1 h
      obtain ⟨⟨result, u'⟩, hrequest, rfl⟩ := map_eq_ok hu
      obtain rfl : _ = t := congrArg Prod.snd (Except.ok.inj h)
      obtain ⟨params', -, hrequest⟩ := bind_eq_ok.1 hrequest
      exact (serverNames_requestToken hrequest).trans hvalid
  · obtain rfl : _ = t := congrArg Prod.snd (Except.ok.inj h)
    rfl

/-- **The gate leaves the list of servers alone.** -/
theorem serverNames_authGate {authenticated : Bool}
    (h : authGate io path caller s = .ok (authenticated, t)) : t.serverNames = s.serverNames := by
  rw [authGate] at h
  split_ifs at h with hroot
  · obtain ⟨-, rfl⟩ := Prod.mk.inj (Except.ok.inj h)
    rfl
  · obtain ⟨⟨result, s₁⟩, hauth, hret⟩ := bind_eq_ok.1 h
    obtain ⟨-, rfl⟩ := Prod.mk.inj (Except.ok.inj hret)
    have hvalid := serverNames_rucioIsTokenValid io (extractServerName path) caller.uid s
    simp only [authenticateUser] at hauth
    split_ifs at hauth with hv
    · obtain rfl : _ = s₁ := congrArg Prod.snd (Except.ok.inj hauth)
      exact hvalid
    · split at hauth
      · obtain rfl : _ = s₁ := congrArg Prod.snd (Except.ok.inj hauth)
        exact hvalid
      · exact (serverNames_requestToken hauth).trans hvalid

/-- So does an exchange. -/
theorem Exchanged.serverNames {payload : Option (List Str)}
    (h : Exchanged io server resource caller s payload t) : t.serverNames = s.serverNames := by
  rcases h with hserver | ⟨hasked, -⟩ | ⟨hasked, -⟩
  · rfl
  · obtain ⟨fields, hheaders, -⟩ := hasked.headers
    exact (serverNames_getAuthHeaders hheaders :)
  · obtain ⟨fields, hheaders, -⟩ := hasked.headers
    exact (serverNames_getAuthHeaders hheaders :)

/-- Where the chunks of an answer come from. -/
theorem Exchanged.exists_answer {chunks : List Str}
    (h : Exchanged io server resource caller s (some chunks) t) :
    ∃ params log request, getServerParams s.servers server = some params ∧
      request.url = cStr (params.serverUrl ++ resource) ∧ (io.net log request).ok = true ∧
      chunks = (io.net log request).payload := by
  rcases h with - | - | ⟨hasked, hok⟩
  obtain ⟨fields, -, params, hparams, rfl⟩ := hasked.headers
  exact ⟨params, _, _, hparams, rfl, hok, rfl⟩

end ServerNames

/-! ### What the caches may hold -/

namespace Catalogue

/-- Everything in the caches has been told by the servers. -/
structure Told (catalogue : Catalogue) (servers : ServerMap) (serverNames : List Str) (s : State) :
    Prop where
  settings : SameSettings servers s.servers
  serverNames : s.serverNames = serverNames
  residue : catalogue.residue s.didStringRemainder
  /-- A listing shows what it, or one with the same key, shows at the server. -/
  listings : ∀ query entry, s.expiring query = some entry →
    ∀ name ∈ entry.2.names, catalogue.Lists query name
  /-- What may be taken for a container is one. The entries under paths are never found. -/
  kinds : ∀ key found, s.isContainerCache.find key = some found → found = some false ∨
    key.head? = some '/' ∨ ∃ server scope name, catalogue.container server scope name ∧
      key = cacheKey [server, scope, name]

section Told

variable {catalogue : Catalogue} {servers : ServerMap} {serverNames : List Str} {io : Io}
  {caller : Caller} {s t : State}

theorem Told.quiet (h : catalogue.Told servers serverNames s) (hquiet : Quiet s t)
    (hnames : t.serverNames = s.serverNames) : catalogue.Told servers serverNames t where
  settings := h.settings.trans hquiet.settings
  serverNames := hnames.trans h.serverNames
  residue := hquiet.remainder ▸ h.residue
  listings := hquiet.expiring ▸ h.listings
  kinds := hquiet.isContainer ▸ h.kinds

theorem Told.note (h : catalogue.Told servers serverNames s) (e : Event) :
    catalogue.Told servers serverNames (s.note e) where
  settings := h.settings
  serverNames := h.serverNames
  residue := h.residue
  listings := (expiring_note e : (s.note e).expiring = _) ▸ h.listings
  kinds := h.kinds

theorem Told.exchanged (h : catalogue.Told servers serverNames s) {server resource : Str}
    {payload : Option (List Str)} (hexchanged : Exchanged io server resource caller s payload t) :
    catalogue.Told servers serverNames t :=
  h.quiet hexchanged.quiet hexchanged.serverNames

/-- A listing is stored. -/
theorem Told.stored (h : catalogue.Told servers serverNames s) (query : Query) {expiry : ℤ}
    {answer : Answer} (hservers : t.servers = s.servers)
    (hnames : t.serverNames = s.serverNames)
    (hremainder : t.didStringRemainder = s.didStringRemainder)
    (hcontainer : t.isContainerCache = s.isContainerCache)
    (hstored : ∀ other, t.expiring other = if other.cacheAndKey = query.cacheAndKey then
      some (expiry, answer) else s.expiring other)
    (hshows : ∀ name ∈ answer.names, catalogue.shows query name) :
    catalogue.Told servers serverNames t where
  settings := hservers ▸ h.settings
  serverNames := hnames.trans h.serverNames
  residue := hremainder ▸ h.residue
  listings other entry hentry name hname := by
    rw [hstored] at hentry
    split_ifs at hentry with hkey
    · obtain rfl := Option.some.inj hentry
      exact ⟨query, hkey.symm, hshows name hname⟩
    · exact h.listings other entry hentry name hname
  kinds := hcontainer ▸ h.kinds

/-- The loop over the DIDs of a listing. -/
theorem Told.primeLookups {server scope : Str} {dids : List RucioDid} : ∀ {s : State},
    catalogue.Told servers serverNames s →
    (∀ d ∈ dids, d.type = some .rucioFile ∨ catalogue.container server scope d.name) →
      catalogue.Told servers serverNames (s.primeLookups server scope dids) := by
  induction dids with
  | nil => exact fun h _ ↦ h
  | cons d dids ih =>
    intro s h hdids
    refine @ih (s.primeLookup server scope d) ⟨h.settings, h.serverNames, h.residue, ?_, ?_⟩
      fun other hother ↦ hdids other (List.mem_cons_of_mem _ hother)
    · have hexpiring : (s.primeLookup server scope d).expiring = s.expiring :=
        (primeLookups_frame server scope [d] s).2.2
      exact hexpiring ▸ h.listings
    · intro key found hfound
      have hinsert : (s.isContainerCache.insert (cacheKey [server, scope, d.name])
          (d.type.map fun type ↦ decide (type ≠ .rucioFile))).find key = some found := hfound
      rw [Table.find_insert] at hinsert
      split_ifs at hinsert with hkey
      · rcases hdids d List.mem_cons_self with hfile | hcontainer
        · rw [hfile] at hinsert
          exact Or.inl (Option.some.inj hinsert).symm
        · exact Or.inr (Or.inr ⟨server, scope, d.name, hcontainer, hkey⟩)
      · exact h.kinds key found hinsert

/-! ### Calls -/

/-- A listing of DIDs that is fetched. -/
theorem Told.fetchDids (h : catalogue.Told servers serverNames s)
    (hworld : catalogue.Tells servers io) {query : Query} (hpath : query.OfPath)
    {dids : List RucioDid}
    {structurize : Str → Str → List RucioDid → Except Fault (Str × List RucioDid)}
    {store : State → ℤ × List RucioDid → State} (hstore : StoresListing query store)
    (hframe : ∀ u entry, (store u entry).servers = u.servers ∧
      (store u entry).serverNames = u.serverNames ∧
      (store u entry).isContainerCache = u.isContainerCache)
    (hparse : ∀ remainder chunks, query.parseChunks remainder chunks = do
      let parsed ← structurizeAll structurize remainder chunks []
      return (parsed.1, .dids parsed.2))
    (hrun : FusePosix.fetchDids io query.server query.scope query.resource caller structurize store
      s = .ok (dids, t)) :
    catalogue.Told servers serverNames t ∧
      ∀ name ∈ dids.map RucioDid.name, catalogue.Lists query name := by
  obtain ⟨payload, s₁, hexchanged, ⟨-, rfl, rfl⟩ | ⟨chunks, remainder, rfl, hparsed, rfl⟩⟩ :=
    fetchDids_eq_ok hrun
  · exact ⟨h.exchanged hexchanged, fun name hname ↦ absurd hname List.not_mem_nil⟩
  obtain ⟨params, log, request, hparams, hurl, hok, rfl⟩ := hexchanged.exists_answer
  have h₁ := h.exchanged hexchanged
  have hread : query.parseChunks s₁.didStringRemainder (io.net log request).payload =
      .ok (remainder, .dids dids) := by
    rw [hparse, hparsed]
    rfl
  obtain ⟨hresidue, hshows, hkinds⟩ := hworld.listing query params log request hpath
    ((h.settings.getServerParams query.server).symm.trans hparams) hurl hok _ _ h₁.residue hread
  have hkept : catalogue.Told servers serverNames { s₁ with didStringRemainder := remainder } :=
    ⟨h₁.settings, h₁.serverNames, hresidue, h₁.listings, h₁.kinds⟩
  refine ⟨?_, fun name hname ↦ ⟨query, rfl, hshows name hname⟩⟩
  obtain ⟨hservers, hnames, hcontainer⟩ := hframe
    (({ s₁ with didStringRemainder := remainder } : State).primeLookups query.server query.scope
      dids) (io.now + chacheDuration, dids)
  exact (hkept.primeLookups hkinds).stored query hservers hnames (hstore.remainder _ _) hcontainer
    (hstore.expiring _ _) hshows

/-- An entry of a listing that is used. -/
theorem Told.used (h : catalogue.Told servers serverNames s) {query : Query} {expiry : ℤ}
    {answer : Answer} (hentry : s.expiring query = some (expiry, answer)) (e : Event) :
    catalogue.Told servers serverNames (s.note e) ∧
      ∀ name ∈ answer.names, catalogue.Lists query name :=
  ⟨h.note e, h.listings query _ hentry⟩

theorem Told.rucioListScopes (h : catalogue.Told servers serverNames s)
    (hworld : catalogue.Tells servers io) (c : Component) {scopes : List Str}
    (hrun : FusePosix.rucioListScopes io c.text caller s = .ok (scopes, t)) :
    catalogue.Told servers serverNames t ∧
      ∀ name ∈ scopes, catalogue.Lists (.scopes c.text) name := by
  rcases rucioListScopes_eq_ok hrun with ⟨hfetch, -⟩ | ⟨expiry, hfound, -, rfl⟩
  · obtain ⟨payload, s₁, hexchanged, ⟨-, rfl, rfl⟩ | ⟨chunks, rfl, hparsed, rfl⟩⟩ :=
      fetchScopes_eq_ok hfetch
    · exact ⟨h.exchanged hexchanged, fun name hname ↦ absurd hname List.not_mem_nil⟩
    obtain ⟨params, log, request, hparams, hurl, hok, rfl⟩ := hexchanged.exists_answer
    have h₁ := h.exchanged hexchanged
    have hread : (Query.scopes c.text).parseChunks s₁.didStringRemainder
        (io.net log request).payload = .ok (s₁.didStringRemainder, .scopes scopes) := by
      rw [Query.parseChunks, hparsed]
      rfl
    obtain ⟨-, hshows, -⟩ := hworld.listing (.scopes c.text) params log request (.scopes c)
      ((h.settings.getServerParams c.text).symm.trans hparams) hurl hok _ _ h₁.residue hread
    refine ⟨?_, fun name hname ↦ ⟨_, rfl, hshows name hname⟩⟩
    exact h₁.stored (.scopes c.text) rfl rfl rfl rfl
      (fun other ↦ expiring_setScopes c.text _ other) hshows
  · have hentry : s.expiring (.scopes c.text) = some (expiry, .scopes scopes) := by
      show (s.scopesCache.find c.text).map _ = _
      rw [hfound, Option.map_some]
    exact h.used hentry _

/-- The listing of a scope. -/
theorem Told.rucioListDids (h : catalogue.Told servers serverNames s)
    (hworld : catalogue.Tells servers io) (c e : Component) {dids : List RucioDid}
    (hrun : FusePosix.rucioListDids io e.text c.text caller s = .ok (dids, t)) :
    catalogue.Told servers serverNames t ∧
      ∀ name ∈ dids.map RucioDid.name, catalogue.Lists (.dids c.text e.text) name := by
  rcases rucioListDids_eq_ok hrun with ⟨hfetch, -⟩ | ⟨expiry, hfound, -, rfl⟩
  · exact h.fetchDids hworld (.dids c e [])
      (storesListing_setDids c.text e.text) (fun _ _ ↦ ⟨rfl, rfl, rfl⟩) (fun _ _ ↦ rfl) hfetch
  · have hentry : s.expiring (.dids c.text e.text) = some (expiry, .dids dids) := by
      show (s.didsCache.find _).map _ = _
      rw [hfound, Option.map_some]
    exact h.used hentry _

/-- The listing of a container. -/
theorem Told.rucioListContainerDids (h : catalogue.Told servers serverNames s)
    (hworld : catalogue.Tells servers io) (c e d : Component) {dids : List RucioDid}
    (hrun : FusePosix.rucioListContainerDids io e.text d.text c.text caller s = .ok (dids, t)) :
    catalogue.Told servers serverNames t ∧ ∀ name ∈ dids.map RucioDid.name,
      catalogue.Lists (.containerDids c.text e.text d.text) name := by
  rcases rucioListContainerDids_eq_ok hrun with ⟨hfetch, -⟩ | ⟨expiry, hfound, -, rfl⟩
  · exact h.fetchDids hworld (.dids c e [d])
      (storesListing_setContainerDids c.text e.text d.text) (fun _ _ ↦ ⟨rfl, rfl, rfl⟩)
      (fun _ _ ↦ rfl) hfetch
  · have hentry : s.expiring (.containerDids c.text e.text d.text) =
        some (expiry, .dids dids) := by
      show (s.containerDidsCache.find _).map _ = _
      rw [hfound, Option.map_some]
    exact h.used hentry _

/-- Whether there is a container at a path. -/
theorem Told.rucioIsContainer (h : catalogue.Told servers serverNames s)
    (hworld : catalogue.Tells servers io) (c e d : Component) (cs : List Component) {value : Bool}
    (hrun : FusePosix.rucioIsContainer io (mkPath (c :: e :: (cs ++ [d])) false) caller s =
      .ok (value, t)) :
    catalogue.Told servers serverNames t ∧ (value = true → catalogue.Taken c e d) := by
  obtain ⟨scope, name, hentity, hend⟩ := rucioIsContainer_eq_ok hrun
  rw [extractServerName_mkPath] at hentity hend
  rw [entityOfPath_mkPath, getLast_eq_getLastD, List.getLastD_concat] at hentity
  obtain ⟨rfl, rfl⟩ : e.text = scope ∧ d.text = name := by simpa using hentity
  rcases hend with ⟨found, hfound, hvalue, rfl⟩ | ⟨-, payload, s₁, hexchanged, hend⟩
  · refine ⟨h.note _, fun htrue ↦ ?_⟩
    rcases h.kinds _ found hfound with rfl | hhead | ⟨server, scope, name, hcontainer, hkey⟩
    · exact absurd (hvalue.symm.trans htrue) Bool.false_ne_true
    · -- keys begin with the name of a server
      obtain ⟨x, rest, hx⟩ := List.exists_cons_of_ne_nil c.ne_nil
      have hslash : x = '/' := by simpa [cacheKey, hx] using hhead
      exact absurd (hx ▸ List.mem_cons_self) (hslash ▸ c.slash_notMem)
    · exact ⟨server, scope, name, hcontainer, hkey.symm⟩
  · have h₁ := h.exchanged hexchanged
    rcases hend with ⟨-, rfl, rfl⟩ | ⟨front, rest, rfl, rfl, rfl⟩
    · exact ⟨h₁, fun htrue ↦ absurd htrue Bool.false_ne_true⟩
    obtain ⟨params, log, request, hparams, hurl, hok, hpayload⟩ := hexchanged.exists_answer
    refine ⟨⟨h₁.settings, h₁.serverNames, h₁.residue, h₁.listings, fun key found hfound ↦ ?_⟩,
      fun htrue ↦ ⟨c.text, e.text, d.text, ?_, rfl⟩⟩
    · have hinsert : (s₁.isContainerCache.insert (mkPath (c :: e :: (cs ++ [d])) false)
          (some (saysContainer front))).find key = some found := hfound
      rw [Table.find_insert] at hinsert
      split_ifs at hinsert with hkey
      · exact Or.inr (Or.inl (hkey ▸ rfl))
      · exact h₁.kinds key found hinsert
    · refine hworld.record c e d params log request
        ((h.settings.getServerParams c.text).symm.trans hparams) hurl hok front ?_ htrue
      rw [← hpayload]
      rfl

theorem Told.rucioGetSize {path : Str} {size : ℤ} (h : catalogue.Told servers serverNames s)
    (hrun : FusePosix.rucioGetSize io path caller s = .ok (size, t)) :
    catalogue.Told servers serverNames t := by
  obtain ⟨scope, name, -, ⟨found, -, -, rfl⟩ | ⟨-, payload, s₁, hexchanged, hend⟩⟩ :=
    rucioGetSize_eq_ok hrun
  · exact h.note _
  · have h₁ := h.exchanged hexchanged
    rcases hend with ⟨-, -, rfl⟩ | ⟨chunks, -, -, -, rfl⟩ | ⟨chunks, -, -, rfl⟩
    · exact h₁
    · exact h₁
    · exact ⟨h₁.settings, h₁.serverNames, h₁.residue, h₁.listings, h₁.kinds⟩

end Told

end Catalogue

end FusePosix
