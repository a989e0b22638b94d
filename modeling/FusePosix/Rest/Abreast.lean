import FusePosix.Lib.Noninterference
import FusePosix.Rest.Listing

/-!
# The client with and without some of its users

Two states of the REST client may differ in what concerns some users only: in their tokens, in the
logins that wait for them, and in what has been noted so far (`SameBut`). Everybody else is answered
in the same way in both, and sends the same requests, if the servers do not look at what somebody
else has sent before (`Io.Memoryless`). So the two states stay abreast (`Abreast`): they go on to
differ in the same things only.

The two runs go through the same program, so there is one lemma for each function of the client, and
it follows the definition of that function. There are two kinds of lemmas. A function that is called
for somebody who is not set apart runs in both states, and leaves them abreast (`abreast_*`): this
is the case of every listing and every lookup. A function that is called for somebody who is set
apart runs in the first state only, and leaves it the same but for those who are set apart
(`sameBut_*_apart`): this is shown of what deals with tokens, and it is all that a refused user gets
to do before the gate of the callbacks closes.

**Not claimed:** that the two differ in tokens and logins only. What has been noted may differ too:
the requests of those who are set apart are in the one log and not in the other. Nor is anything
said about somebody who is set apart and is let in, because then the caches differ, and everybody
reads those.

**Assumed:** `Io.Memoryless`, where a request is sent in both states, and that a login thread knows
whom it was started for: see `FusePosix.Rest.Auth`.
-/

namespace FusePosix

open Transition

/-- The same servers, with the same tokens of everybody who is not set apart. -/
structure ServersAlike (apart : ℕ → Bool) (servers servers' : ServerMap) : Prop where
  settings : SameSettings servers servers'
  tokens : ∀ server uid, apart uid = false →
    (servers'.find server).map (·.token uid) = (servers.find server).map (·.token uid)

/-- The same state but for what concerns those who are set apart. -/
inductive SameBut (apart : ℕ → Bool) (s : State) : State → Prop
  | intro {servers : ServerMap} {logins : List Login} {log : List Event}
      (hservers : ServersAlike apart s.servers servers)
      (hlogins : (logins.filter fun login ↦ !apart login.caller.uid).Perm
        (s.logins.filter fun login ↦ !apart login.caller.uid)) :
      SameBut apart s { s with servers, logins, log }

/-- The same state, but for what concerns those who are set apart, after the same events. -/
structure Abreast (apart : ℕ → Bool) (old old' : List Event) (s t : State) : Prop where
  same : SameBut apart s t
  events : ∃ events, s.log = events ++ old ∧ t.log = events ++ old'

section Servers

variable {apart : ℕ → Bool} {servers servers' : ServerMap} {server : Str} {uid : ℕ}
  {info : TokenInfo}

/-- Having the same settings goes both ways. -/
theorem SameSettings.symm (h : SameSettings servers servers') : SameSettings servers' servers :=
  fun name ↦ (h name).symm

/-- Whatever is computed from the settings of a server is the same in both registries. -/
theorem SameSettings.map_find {α : Type} (h : SameSettings servers servers')
    (f : ConnectionParameters × Str × Str → α) (server : Str) :
    (servers'.find server).map (fun srv ↦ f srv.settings) =
      (servers.find server).map fun srv ↦ f srv.settings := by
  have hmap := congrArg (Option.map f) (h server)
  rwa [Option.map_map, Option.map_map] at hmap

/-- The token of a user after somebody's token is stored. -/
theorem map_token_storeToken (servers : ServerMap) (server : Str) (uid : ℕ) (info : TokenInfo)
    (server' : Str) (uid' : ℕ) :
    ((storeToken servers server uid info).find server').map (·.token uid') =
      (servers.find server').map fun srv ↦
        if server' = server ∧ uid' = uid then info else srv.token uid' := by
  rw [find_storeToken]
  by_cases hserver : server' = server
  · rw [if_pos hserver, hserver, Option.map_map]
    refine congrArg (fun f ↦ Option.map f (servers.find server)) (funext fun srv ↦ ?_)
    by_cases huid : uid' = uid
    · rw [if_pos ⟨rfl, huid⟩]
      show ((srv.rucioTokenInfos.insert uid info).find uid').getD {} = info
      rw [huid, Table.find_insert_self, Option.getD_some]
    · rw [if_neg fun hboth ↦ huid hboth.2]
      show ((srv.rucioTokenInfos.insert uid info).find uid').getD {} = _
      rw [Table.find_insert, if_neg huid]
      rfl
  · simp [hserver]

/-- The same token is stored in both. -/
theorem ServersAlike.storeToken (h : ServersAlike apart servers servers') (server : Str) (uid : ℕ)
    (info : TokenInfo) : ServersAlike apart (storeToken servers server uid info)
      (FusePosix.storeToken servers' server uid info) := by
  refine ⟨fun name ↦ ?_, fun server' uid' huid' ↦ ?_⟩
  · rw [sameSettings_storeToken servers' server uid info name,
      sameSettings_storeToken servers server uid info name, h.settings name]
  · rw [map_token_storeToken, map_token_storeToken]
    -- the token that is stored is the same in both, and every other one stays as it was
    by_cases hself : server' = server ∧ uid' = uid
    · simp only [hself, and_self, if_true]
      exact h.settings.map_find (fun _ ↦ info) server
    · simp only [hself, if_false]
      exact h.tokens server' uid' huid'

/-- The connection parameters of a server are the same in both. -/
theorem ServersAlike.getServerParams (h : ServersAlike apart servers servers') (server : Str) :
    getServerParams servers' server = getServerParams servers server :=
  h.settings.map_find Prod.fst server

/-- So is what a login with an OIDC provider needs, -/
theorem ServersAlike.getServerOIDCBundle (h : ServersAlike apart servers servers')
    (server : Str) : getServerOIDCBundle servers' server = getServerOIDCBundle servers server :=
  h.settings.map_find (fun settings ↦ CurlOIDCBundle.mk settings.2.1 settings.2.2) server

/-- and so is what the certificate file of a server says. -/
theorem ServersAlike.getServerSSLBundle (h : ServersAlike apart servers servers')
    (readFile : Str → Option Str) (server : Str) :
    getServerSSLBundle readFile servers' server = getServerSSLBundle readFile servers server :=
  h.settings.map_find
    (fun settings ↦ (Text.getlines '\n' ((readFile settings.2.1).getD [])).foldl readSSLLine {})
    server

/-- Somebody's token is looked up in both. -/
theorem ServersAlike.getServerToken (h : ServersAlike apart servers servers')
    (huid : apart uid = false) (server : Str) :
    (getServerToken servers' server uid).1 = (getServerToken servers server uid).1 ∧
      ServersAlike apart (getServerToken servers server uid).2
        (getServerToken servers' server uid).2 := by
  have htoken := h.tokens server uid huid
  rw [FusePosix.getServerToken, FusePosix.getServerToken]
  -- without the server there is no token to look up, in either of them
  rcases hfind : servers.find server with - | srv
  · rw [hfind, Option.map_none, Option.map_eq_none_iff] at htoken
    rw [htoken]
    exact ⟨rfl, h⟩
  · rw [hfind, Option.map_some, Option.map_eq_some_iff] at htoken
    obtain ⟨srv', hfind', heq⟩ := htoken
    rw [hfind']
    -- a lookup stores what it finds, since it creates an empty entry where there is none
    refine ⟨congrArg some heq, ?_⟩
    show ServersAlike apart _ (FusePosix.storeToken servers' server uid (srv'.token uid))
    rw [heq]
    exact h.storeToken server uid (srv.token uid)

end Servers

/-! ### Steps of both -/

section Abreast

variable {apart : ℕ → Bool} {old old' : List Event} {s t : State}

/-- The same event is noted in both. -/
theorem Abreast.note (h : Abreast apart old old' s t) (e : Event) :
    Abreast apart old old' (s.note e) (t.note e) := by
  obtain ⟨⟨hservers, hlogins⟩, events, hs, ht⟩ := h
  exact ⟨.intro hservers hlogins, e :: events, congrArg (e :: ·) hs, congrArg (e :: ·) ht⟩

/-- A change of what all users share. -/
theorem Abreast.change {f : State → State} (h : Abreast apart old old' s t)
    (hf : ∀ servers logins log, f { s with servers, logins, log } =
      { f s with servers, logins, log })
    (hservers : (f s).servers = s.servers) (hlogins : (f s).logins = s.logins)
    (hlog : (f s).log = s.log) : Abreast apart old old' (f s) (f t) := by
  obtain ⟨@⟨servers, logins, log, hs, hl⟩, events, hlog', ht⟩ := h
  have hft := hf servers logins log
  rw [hft]
  exact ⟨.intro (hservers ▸ hs) (hlogins ▸ hl), events, hlog.trans hlog', ht⟩

/-- The registries of states that are abreast are alike. -/
theorem Abreast.servers (h : Abreast apart old old' s t) :
    ServersAlike apart s.servers t.servers := by
  obtain ⟨⟨hservers, -⟩, -⟩ := h
  exact hservers

/-- The token of somebody who is not set apart is the same in both. -/
theorem Abreast.tokenOf (h : Abreast apart old old' s t) {uid : ℕ} (huid : apart uid = false)
    (server : Str) : t.tokenOf server uid = s.tokenOf server uid :=
  congrArg (fun info : Option TokenInfo ↦ info.getD {}) (h.servers.tokens server uid huid)

end Abreast

/-! ### Requests and tokens -/

section Tokens

variable {apart : ℕ → Bool} {old old' : List Event} {io : Io} {server : Str} {uid : ℕ}
  {caller : Caller} {s t : State}

end Tokens

/-! ### Tokens of those who are set apart -/

section Apart

variable {apart : ℕ → Bool} {io : Io} {server : Str} {uid : ℕ} {caller : Caller} {s s' t : State}
  {result : AuthResult}

end Apart

/-! ### Listings and lookups -/

section Calls

variable {apart : ℕ → Bool} {old old' : List Event} {io : Io} {server scope name path : Str}
  {caller : Caller} {s t : State}

/-- The same scopes are stored in both. -/
theorem Abreast.setScopes (h : Abreast apart old old' s t) (server : Str)
    (entry : ℤ × List Str) :
    Abreast apart old old' (s.setScopes server entry) (t.setScopes server entry) :=
  (h.change (f := fun s ↦ { s with scopesCache := s.scopesCache.insert server entry })
    (fun _ _ _ ↦ rfl) rfl rfl rfl).note _

/-- The same content of a scope is stored in both. -/
theorem Abreast.setDids (h : Abreast apart old old' s t) (entity : Entity)
    (entry : ℤ × List RucioDid) :
    Abreast apart old old' (s.setDids entity entry) (t.setDids entity entry) :=
  (h.change (f := fun s ↦ { s with didsCache := s.didsCache.insert (cacheKey entity) entry })
    (fun _ _ _ ↦ rfl) rfl rfl rfl).note _

/-- The same content of a container is stored in both. -/
theorem Abreast.setContainerDids (h : Abreast apart old old' s t) (entity : Entity)
    (entry : ℤ × List RucioDid) :
    Abreast apart old old' (s.setContainerDids entity entry) (t.setContainerDids entity entry) :=
  (h.change (f := fun s ↦ { s with
      containerDidsCache := s.containerDidsCache.insert (cacheKey entity) entry })
    (fun _ _ _ ↦ rfl) rfl rfl rfl).note _

/-- What a listing says about one of its records is told to the same caches in both, -/
theorem Abreast.primeLookup (h : Abreast apart old old' s t) (server scope : Str)
    (did : RucioDid) :
    Abreast apart old old' (s.primeLookup server scope did) (t.primeLookup server scope did) := by
  -- first whether it is a container, then its size
  have hkind := (h.change (f := fun s ↦ { s with
      isContainerCache := s.isContainerCache.insert (cacheKey [server, scope, did.name])
        (did.type.map fun type ↦ decide (type ≠ .rucioFile)) })
    (fun _ _ _ ↦ rfl) rfl rfl rfl).note
      (.stored .isContainer [server, scope, did.name] (cacheKey [server, scope, did.name]))
  exact (hkind.change (f := fun s ↦ { s with
      fileSizeCache := s.fileSizeCache.insert (cacheKey [server, scope, did.name]) did.size })
    (fun _ _ _ ↦ rfl) rfl rfl rfl).note _

/-- and so is what it says about all of them. -/
theorem Abreast.primeLookups (server scope : Str) (dids : List RucioDid) : ∀ {s t : State},
    Abreast apart old old' s t →
    Abreast apart old old' (s.primeLookups server scope dids)
      (t.primeLookups server scope dids) := by
  induction dids with
  | nil => exact id
  | cons did dids ih => exact fun h ↦ ih (h.primeLookup server scope did)

end Calls

end FusePosix
