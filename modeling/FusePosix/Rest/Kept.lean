import FusePosix.Rest.Listing

/-!
# What the REST client keeps

The functions of the REST client reach the state in few ways. Talking to a server changes tokens,
logins and the record of requests, and nothing else (`Quiet`). Otherwise an entry of a cache is
used, an entry is stored (`Stores`), or the remainder of the parser changes.

So there is one rule for everything that is invariant under the functions of the client (`Kept`):
what survives these four kinds of steps survives every listing and every lookup, as is shown in
`FusePosix.Rest.Exchange`. The rule is relative to the keys that may be used and stored (`K`), so
that it serves for invariants that say something about them.

Everything that deals with tokens is quiet, in each mode of authentication, up to the gate of the
callbacks (`quiet_authenticateUser`) and the headers of a request (`quiet_getAuthHeaders`). So an
invariant about caches never has to look into a login. Each of the `stores_*` lemmas is about one
assignment to one cache of the source.

**Not claimed:** that a quiet step leaves tokens alone. For whom they change, and when, is the
subject of `FusePosix.Rest.Isolation` and `FusePosix.Fuse.Acts`. And `Stores` does not say which
value is stored, only under which key and that no other key has become new; what the values are
worth is said where they are read, in `FusePosix.Rest.Freshness` and `FusePosix.Fuse.Mirror`.
-/

namespace FusePosix

/-- The server, scope and name a path is about. -/
def entityOfPath (path : Str) : Except Fault Entity := do
  let scope ← extractScope path
  let name ← extractName path
  return [extractServerName path, scope, name]

/-- Whether a cache has an entry under a key. -/
def State.hasKey (s : State) : CacheName → Str → Bool
  | .scopes => s.scopesCache.contains
  | .dids => s.didsCache.contains
  | .containerDids => s.containerDidsCache.contains
  | .isContainer => s.isContainerCache.contains
  | .isFile => s.isFileCache.contains
  | .fileSize => s.fileSizeCache.contains

/-! ### Quiet steps -/

/-- Nothing has happened but requests and what they do to tokens and logins. -/
structure Quiet (s t : State) : Prop where
  settings : SameSettings s.servers t.servers
  scopes : t.scopesCache = s.scopesCache
  dids : t.didsCache = s.didsCache
  containerDids : t.containerDidsCache = s.containerDidsCache
  isContainer : t.isContainerCache = s.isContainerCache
  isFile : t.isFileCache = s.isFileCache
  fileSize : t.fileSizeCache = s.fileSizeCache
  remainder : t.didStringRemainder = s.didStringRemainder
  log : ∃ requests : List Request, t.log = requests.map Event.sent ++ s.log

section Quiet

variable {io : Io} {server : Str} {caller : Caller} {s t u : State}

/-- Doing nothing is quiet. -/
theorem quiet_refl (s : State) : Quiet s s :=
  ⟨sameSettings_refl _, rfl, rfl, rfl, rfl, rfl, rfl, rfl, [], rfl⟩

/-- Quiet steps may follow one another: their requests add up. -/
theorem Quiet.trans (h : Quiet s t) (h' : Quiet t u) : Quiet s u where
  settings := h.settings.trans h'.settings
  scopes := h'.scopes.trans h.scopes
  dids := h'.dids.trans h.dids
  containerDids := h'.containerDids.trans h.containerDids
  isContainer := h'.isContainer.trans h.isContainer
  isFile := h'.isFile.trans h.isFile
  fileSize := h'.fileSize.trans h.fileSize
  remainder := h'.remainder.trans h.remainder
  log := by
    obtain ⟨earlier, hs⟩ := h.log
    obtain ⟨later, ht⟩ := h'.log
    exact ⟨later ++ earlier, by rw [ht, hs, List.map_append, List.append_assoc]⟩

/-- A change of the registry is quiet if it leaves the settings of the servers alone. -/
theorem quiet_servers {servers : ServerMap} (h : SameSettings s.servers servers) :
    Quiet s { s with servers } :=
  ⟨h, rfl, rfl, rfl, rfl, rfl, rfl, rfl, [], rfl⟩

/-- So is a change of the logins that are under way, -/
theorem quiet_logins (s : State) (logins : List Login) : Quiet s { s with logins } :=
  ⟨sameSettings_refl _, rfl, rfl, rfl, rfl, rfl, rfl, rfl, [], rfl⟩

/-- and so is a request, which is recorded. -/
theorem quiet_curlGET (io : Io) (request : Request) (s : State) :
    Quiet s (curlGET io request s).2 :=
  ⟨sameSettings_refl _, rfl, rfl, rfl, rfl, rfl, rfl, rfl, [_], rfl⟩

/-- Checking a token may create an empty one. -/
theorem quiet_rucioIsTokenValid (io : Io) (server : Str) (uid : ℕ) (s : State) :
    Quiet s (rucioIsTokenValid io server uid s).2 := by
  rw [rucioIsTokenValid]
  split
  · exact quiet_refl s
  · rename_i tokenInfo servers htoken
    exact quiet_servers (sameSettings_of_getServerToken htoken)

/-- The token that an answer brings is stored, if it brings one. -/
theorem quiet_receiveToken (io : Io) (server : Str) (uid : ℕ) (ret : CurlRet) (s : State) :
    Quiet s (receiveToken io server uid ret s).2 := by
  rw [receiveToken]
  -- no token without an answer of the right kind that has one, and a server to store it for
  split_ifs with hok
  · exact quiet_refl s
  · split
    · exact quiet_refl s
    · split
      · exact quiet_refl s
      · rename_i tokenInfo servers htoken
        -- the lookup may create an empty token, which the new one replaces
        have hlookup := sameSettings_of_getServerToken htoken
        exact quiet_servers (hlookup.trans (sameSettings_storeToken servers server uid _))

/-- The token of a login with an OIDC provider is stored. -/
theorem quiet_storeOidcToken {uid : ℕ} {token : Str}
    (h : storeOidcToken io server uid token s = .ok t) : Quiet s t := by
  obtain ⟨info, rfl⟩ := exists_of_storeOidcToken h
  exact quiet_servers (sameSettings_storeToken _ _ _ _)

/-- The end of a login is quiet. -/
theorem quiet_oidcLoginEnds {k : ℕ} (h : oidcLoginEnds io k s = .ok t) : Quiet s t := by
  obtain ⟨login, -, h⟩ := bind_eq_ok.1 h
  have hended := quiet_logins s (s.logins.eraseIdx k)
  -- a login that brings nothing has just ended
  simp only at h
  split_ifs at h with hempty
  · obtain rfl := Except.ok.inj h
    exact hended
  · exact hended.trans (quiet_storeOidcToken h)

/-- Asking for a token is quiet in each mode: with account and password or with a certificate it is
one request, with an OIDC provider it is a login thread. -/
theorem quiet_requestToken {mode : AuthMode} {result : AuthResult}
    (h : requestToken io mode server caller s = .ok (result, t)) : Quiet s t := by
  -- each mode does nothing for a server that is not known
  cases mode with
  | userpass =>
    simp only [requestToken, rucioGetAuthTokenUserpass] at h
    split at h
    · obtain ⟨-, rfl⟩ := Prod.mk.inj (Except.ok.inj h)
      exact quiet_refl s
    · obtain rfl : _ = t := congrArg Prod.snd (Except.ok.inj h)
      exact (quiet_curlGET io _ s).trans (quiet_receiveToken io server _ _ _)
  | x509 =>
    simp only [requestToken, rucioGetAuthTokenX509] at h
    split at h
    · obtain ⟨-, rfl⟩ := Prod.mk.inj (Except.ok.inj h)
      exact quiet_refl s
    · obtain ⟨bundle, -, h⟩ := bind_eq_ok.1 h
      obtain rfl : _ = t := congrArg Prod.snd (Except.ok.inj h)
      exact (quiet_curlGET io _ s).trans (quiet_receiveToken io server _ _ _)
  | oidc =>
    simp only [requestToken, rucioGetAuthTokenOidc] at h
    split at h
    · obtain ⟨-, rfl⟩ := Prod.mk.inj (Except.ok.inj h)
      exact quiet_refl s
    · obtain ⟨bundle, -, h⟩ := bind_eq_ok.1 h
      -- the thread has only been started, so there is no token yet
      replace h : Except.ok (AuthResult.tokenError, (getOIDCAsync io server caller
          { s with servers := (getServerToken s.servers server caller.uid).2 }).2) =
        Except.ok (result, t) := h
      obtain rfl : _ = t := congrArg Prod.snd (Except.ok.inj h)
      refine (quiet_servers (sameSettings_getServerToken s.servers server caller.uid)).trans ?_
      show Quiet _ (if io.threadStarts then _ else _)
      split_ifs with hstarts
      · exact quiet_logins _ _
      · exact quiet_refl _
  | none =>
    obtain ⟨-, rfl⟩ := Prod.mk.inj (Except.ok.inj h)
    exact quiet_refl s

/-- So it is in the mode that the settings of the server name. -/
theorem quiet_rucioGetAuthToken {result : AuthResult}
    (h : rucioGetAuthToken io server caller s = .ok (result, t)) : Quiet s t := by
  obtain ⟨params, -, h⟩ := bind_eq_ok.1 h
  exact quiet_requestToken h

/-- **Making the headers of a request is quiet.** -/
theorem quiet_getAuthHeaders {headers : Option (List Str)}
    (h : getAuthHeaders io server caller s = .ok (headers, t)) : Quiet s t := by
  rw [getAuthHeaders] at h
  split at h
  · rename_i params info servers hparams htoken
    have hlookup := quiet_servers (sameSettings_of_getServerToken htoken)
    simp only at h
    have hvalid := quiet_rucioIsTokenValid io server caller.uid { s with servers }
    -- a token that is no longer valid is asked for again, whether that succeeds or not
    split_ifs at h with hv
    · obtain rfl : _ = t := congrArg Prod.snd (Except.ok.inj h)
      exact hlookup.trans hvalid
    · obtain ⟨u, hu, h⟩ := bind_eq_ok.1 h
      obtain ⟨⟨result, u'⟩, hrequest, rfl⟩ := map_eq_ok hu
      obtain rfl : _ = t := congrArg Prod.snd (Except.ok.inj h)
      exact (hlookup.trans hvalid).trans (quiet_rucioGetAuthToken hrequest)
  · obtain rfl : _ = t := congrArg Prod.snd (Except.ok.inj h)
    exact quiet_refl s

/-- **The gate of the callbacks is quiet.** -/
theorem quiet_authenticateUser {path : Str} {result : AuthResult}
    (h : authenticateUser io path caller s = .ok (result, t)) : Quiet s t := by
  have hvalid := quiet_rucioIsTokenValid io (extractServerName path) caller.uid s
  simp only [authenticateUser] at h
  -- a valid token lets its user pass, otherwise one is asked for, in the mode of the server
  split_ifs at h with hv
  · obtain rfl : _ = t := congrArg Prod.snd (Except.ok.inj h)
    exact hvalid
  · split at h
    · obtain rfl : _ = t := congrArg Prod.snd (Except.ok.inj h)
      exact hvalid
    · exact hvalid.trans (quiet_requestToken h)

end Quiet

/-! ### Steps that store -/

/-- An entry has been stored under a key. -/
structure Stores (s t : State) (cache : CacheName) (entity : Entity) (key : Str) : Prop where
  servers : t.servers = s.servers
  hasKey : ∀ cache' key', t.hasKey cache' key' = true →
    s.hasKey cache' key' = true ∨ (cache' = cache ∧ key' = key)
  log : t.log = .stored cache entity key :: s.log

section Stores

variable {s : State} {entity : Entity}

/-- A key that is there after an entry is inserted was there before, or is the key of that entry. -/
theorem contains_insert_imp {ν : Type*} {table : Table Str ν} {k l : Str} {v : ν}
    (h : (table.insert k v).contains l = true) : table.contains l = true ∨ l = k := by
  rw [Table.contains_insert, Bool.or_eq_true, decide_eq_true_iff] at h
  exact h.symm

/-- The scopes of a server are stored under its name. -/
theorem stores_setScopes (server : Str) (entry : ℤ × List Str) :
    Stores s (s.setScopes server entry) .scopes [server] server := by
  refine ⟨rfl, fun cache' key' hkey' ↦ ?_, rfl⟩
  -- only one cache has changed, and there only the one key can be new
  cases cache' with
  | scopes => exact (contains_insert_imp hkey').imp id fun heq ↦ ⟨rfl, heq⟩
  | dids | containerDids | isContainer | isFile | fileSize => exact Or.inl hkey'

/-- The content of a scope is stored under the key of the scope. -/
theorem stores_setDids (entry : ℤ × List RucioDid) :
    Stores s (s.setDids entity entry) .dids entity (cacheKey entity) := by
  refine ⟨rfl, fun cache' key' hkey' ↦ ?_, rfl⟩
  cases cache' with
  | dids => exact (contains_insert_imp hkey').imp id fun heq ↦ ⟨rfl, heq⟩
  | scopes | containerDids | isContainer | isFile | fileSize => exact Or.inl hkey'

/-- The content of a container is stored under the key of the container. -/
theorem stores_setContainerDids (entry : ℤ × List RucioDid) :
    Stores s (s.setContainerDids entity entry) .containerDids entity (cacheKey entity) := by
  refine ⟨rfl, fun cache' key' hkey' ↦ ?_, rfl⟩
  cases cache' with
  | containerDids => exact (contains_insert_imp hkey').imp id fun heq ↦ ⟨rfl, heq⟩
  | scopes | dids | isContainer | isFile | fileSize => exact Or.inl hkey'

/-- Whether a DID is a container is stored under any key: a listing takes that of the DID, a lookup
takes the path. -/
theorem stores_isContainer (key : Str) (value : Option Bool) :
    Stores s ({ s with isContainerCache := s.isContainerCache.insert key value }.note
      (.stored .isContainer entity key)) .isContainer entity key := by
  refine ⟨rfl, fun cache' key' hkey' ↦ ?_, rfl⟩
  cases cache' with
  | isContainer => exact (contains_insert_imp hkey').imp id fun heq ↦ ⟨rfl, heq⟩
  | scopes | dids | containerDids | isFile | fileSize => exact Or.inl hkey'

/-- The size that a listing says is stored, in place of an older one. -/
theorem stores_fileSize (key : Str) (size : Option ℤ) :
    Stores s ({ s with fileSizeCache := s.fileSizeCache.insert key size }.note
      (.stored .fileSize entity key)) .fileSize entity key := by
  refine ⟨rfl, fun cache' key' hkey' ↦ ?_, rfl⟩
  cases cache' with
  | fileSize => exact (contains_insert_imp hkey').imp id fun heq ↦ ⟨rfl, heq⟩
  | scopes | dids | containerDids | isContainer | isFile => exact Or.inl hkey'

/-- The size that a lookup reads is stored only if there is none, and yet no other key becomes new.
-/
theorem stores_emplaceSize (size : ℤ) :
    Stores s (s.emplaceSize entity size) .fileSize entity (cacheKey entity) := by
  refine ⟨rfl, fun cache' key' hkey' ↦ ?_, rfl⟩
  cases cache' with
  | fileSize =>
    -- whether or not the entry is taken over, its key is there afterwards
    have hemplace : (s.fileSizeCache.emplace (cacheKey entity) (some size)).contains key' = true :=
      hkey'
    rw [Table.contains_emplace, Bool.or_eq_true, decide_eq_true_iff] at hemplace
    exact hemplace.symm.imp id fun heq ↦ ⟨rfl, heq⟩
  | scopes | dids | containerDids | isContainer | isFile => exact Or.inl hkey'

end Stores

/-! ### The rule -/

/-- What survives the steps of the REST client, as long as only allowed keys are used and stored. -/
structure Kept (K : CacheName → Entity → Str → Prop) (P : State → Prop) : Prop where
  quiet : ∀ {s t}, Quiet s t → P s → P t
  remainder : ∀ {s} (remainder : Str), P s → P { s with didStringRemainder := remainder }
  used : ∀ {s cache entity key}, s.hasKey cache key = true → K cache entity key → P s →
    P (s.note (.used cache entity key))
  stores : ∀ {s t cache entity key}, Stores s t cache entity key → K cache entity key → P s → P t

section Kept

variable {K : CacheName → Entity → Str → Prop} {P : State → Prop} {s t : State}

/-- What a listing tells the lookups about one record is two entries. -/
theorem kept_primeLookup (hP : Kept K P) {server scope : Str} {did : RucioDid}
    (hcontainer : K .isContainer [server, scope, did.name] (cacheKey [server, scope, did.name]))
    (hsize : K .fileSize [server, scope, did.name] (cacheKey [server, scope, did.name]))
    (h : P s) : P (s.primeLookup server scope did) :=
  hP.stores (stores_fileSize _ _) hsize (hP.stores (stores_isContainer _ _) hcontainer h)

/-- What a listing has to be allowed to record. -/
def ListingKeys (K : CacheName → Entity → Str → Prop) (server scope : Str) (dids : List RucioDid) :
    Prop :=
  ∀ did ∈ dids,
    K .isContainer [server, scope, did.name] (cacheKey [server, scope, did.name]) ∧
      K .fileSize [server, scope, did.name] (cacheKey [server, scope, did.name])

/-- **So what is kept by storing such entries is kept by all that a listing tells.** -/
theorem kept_primeLookups (hP : Kept K P) {server scope : Str} {dids : List RucioDid}
    (hK : ListingKeys K server scope dids) (h : P s) : P (s.primeLookups server scope dids) := by
  -- record by record, in the order of the listing
  induction dids generalizing s with
  | nil => exact h
  | cons did dids ih =>
    obtain ⟨hcontainer, hsize⟩ := hK did List.mem_cons_self
    exact ih (fun other hother ↦ hK other (List.mem_cons_of_mem _ hother))
      (kept_primeLookup hP hcontainer hsize h)

end Kept

end FusePosix
