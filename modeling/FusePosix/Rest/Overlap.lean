import FusePosix.Lib.ReadThrough
import FusePosix.Rest.Freshness

/-!
# Listings under way

A listing is not atomic. It looks into its cache, asks the server, parses the answer chunk by chunk,
tells the caches of the lookups what it has learnt, stores the list, and reads the entry back for
its answer; and any number of callbacks may be under way at the same time. Here each of these is a
step of its own, and everything else the client does happens between them: lookups of single DIDs,
authentications, and the ends of login threads.

A listing that nobody interrupts does what it does in one piece (`exec_uninterrupted_listing`). And
if it is interrupted, what it reads back may be the work of another one; how old that can be is
said by `overlapping_listings_fresh`.

**Not claimed**: that an answer is what the server has said. All DID listings share one remainder of
the parser, so what a listing makes of its server's answer depends on the chunks that others parse
in between (`concurrent_listings_iff` says when it does not). Recorded is what a listing has made of
the answer by the time it is about to store it (`Client.made`).

**Assumed**: an access to a cache is atomic, the look into a cache and the use of what has been
found there are one access, and the parser works on one chunk at a time. The class of the caches is
called `thread_safe_unordered_map`, but its `std::scoped_lock(lock);` declares a variable of that
name and locks nothing, so nothing in the program brings this about. What happens to a table that
two threads change in the same moment is not modelled. Steps read a clock that does not go back. The
token and the request of a listing are one step, and so are the two notes on a DID for lookups; none
of them touches a listing.
-/

namespace FusePosix

open ReadThrough Transition

/-! ### Listings, access by access -/

/-- A query for a listing. -/
inductive Listing where
  | scopes (server : Str)
  | dids (server scope : Str)
  | containerDids (server scope name : Str)
  deriving DecidableEq, Repr

namespace Listing

/-- The query. -/
def query : Listing → Query
  | .scopes server => .scopes server
  | .dids server scope => .dids server scope
  | .containerDids server scope name => .containerDids server scope name

/-- What the cache of a listing holds. -/
abbrev Content : Listing → Type
  | .scopes _ => List Str
  | .dids _ _ => List RucioDid
  | .containerDids _ _ _ => List RucioDid

/-- The content of a listing as an answer. -/
def answer : (listing : Listing) → listing.Content → Answer
  | .scopes _, content => .scopes content
  | .dids _ _, content => .dids content
  | .containerDids _ _ _, content => .dids content

/-- The entry of a listing. -/
def find (s : State) : (listing : Listing) → Option (ℤ × listing.Content)
  | .scopes server => s.scopesCache.find server
  | .dids server scope => s.didsCache.find (cacheKey [server, scope])
  | .containerDids server scope name => s.containerDidsCache.find (cacheKey [server, scope, name])

/-- `set_value`. -/
def store (s : State) : (listing : Listing) → ℤ × listing.Content → State
  | .scopes server, entry => s.setScopes server entry
  | .dids server scope, entry => s.setDids [server, scope] entry
  | .containerDids server scope name, entry => s.setContainerDids [server, scope, name] entry

/-- `operator[]`. -/
def readBack (listing : Listing) (s : State) : Except Fault listing.Content :=
  match listing.find s with
  | some found => return found.2
  | none => .error .outOfRange

end Listing

/-- What there is to parse: nothing unless the transfer has succeeded. -/
def CurlRet.chunks (ret : CurlRet) : Option (List Str) := if !ret.ok then none else some ret.payload

/-- `rucio_list_scopes` between the look into the cache and the parser: the chunks of the answer, if
there is one. -/
def askScopes (io : Io) (shortServerName : Str) (caller : Caller) (s : State) :
    Except Fault (Option (List Str) × State) := do
  let (headers, s) ← getAuthHeaders io shortServerName caller s
  match headers, getServerParams s.servers shortServerName with
  | some headers, some connParams =>
    let (curlRes, s) := safeGET io (dataRequest connParams "/scopes/".toList headers) s
    return (curlRes.chunks, s)
  | _, _ => return (none, s)

/-- The two DID listings between the look into the cache and the parser. -/
def askDids (io : Io) (shortServerName resource : Str) (caller : Caller) (s : State) :
    Except Fault (Option (List Str) × State) := do
  let connParams := getServerParams s.servers shortServerName
  let (headers, s) ← getAuthHeaders io shortServerName caller s
  match headers with
  | none => return (none, s)
  | some headers =>
    let connParams ← deref connParams
    let (curlRes, s) := safeGET io (dataRequest connParams resource headers) s
    return (curlRes.chunks, s)

/-- A call of the parser of the DID listings, with the remainder that all of them share. -/
def parseChunk (structurize : Str → Str → List RucioDid → Except Fault (Str × List RucioDid))
    (s : State) (line : Str) (dids : List RucioDid) : Except Fault (List RucioDid × State) := do
  let parsed ← structurize s.didStringRemainder line dids
  return (parsed.2, { s with didStringRemainder := parsed.1 })

namespace Listing

/-- What a listing asks its server once the cache has no entry it may use. -/
def ask (io : Io) (caller : Caller) (s : State) :
    Listing → Except Fault (Option (List Str) × State)
  | .scopes server => askScopes io server caller s
  | .dids server scope => askDids io server ("/dids/".toList ++ scope ++ ['/']) caller s
  | .containerDids server scope name =>
      askDids io server ("/dids/".toList ++ scope ++ ['/'] ++ name ++ "/dids".toList) caller s

/-- The list before the first chunk. -/
def empty : (listing : Listing) → listing.Content
  | .scopes _ => []
  | .dids _ _ => []
  | .containerDids _ _ _ => []

/-- One turn of the loop over the chunks. -/
def parse (s : State) (line : Str) :
    (listing : Listing) → listing.Content → Except Fault (listing.Content × State)
  | .scopes _, got => return (← tokenizePythonList line got, s)
  | .dids _ _, got => parseChunk structurizeDid s line got
  | .containerDids _ _ _, got => parseChunk structurizeContainerDid s line got

/-- The DIDs that the caches of the lookups are told about. -/
def learnt : (listing : Listing) → listing.Content → List RucioDid
  | .scopes _, _ => []
  | .dids _ _, got => got
  | .containerDids _ _ _, got => got

/-- One turn of the loop over the DIDs. -/
def prime (s : State) (did : RucioDid) : Listing → State
  | .scopes _ => s
  | .dids server scope => s.primeLookup server scope did
  | .containerDids server scope _ => s.primeLookup server scope did

end Listing

/-- What a listing does next that has found no entry it may use. -/
inductive Access (Content : Type) where
  | asking
  /-- The server has answered. Some chunks of the answer are still to be parsed. -/
  | parsing (chunks : List Str) (content : Content)
  /-- The answer is parsed. The caches of the lookups are still to be told about some DIDs. -/
  | priming (dids : List RucioDid) (content : Content)
  | storing (content : Content)
  | returning

/-- The same, as far as the entry of the listing is concerned: it is not known yet what will be
stored, until all is parsed. -/
def Access.stage {Content : Type} (answer : Content → Answer) : Access Content → Stage Answer
  | .asking | .parsing _ _ | .priming _ _ => .asking
  | .storing content => .storing (answer content)
  | .returning => .returning

/-- A listing that is under way: it has found no entry that it may use. -/
structure Lister where
  listing : Listing
  caller : Caller
  /-- What the clock showed at the look into the cache. -/
  started : ℤ
  access : Access listing.Content

/-- A listing that is under way, as a call that reads through a cache. -/
def Lister.call (r : Lister) : Call (CacheName × Str) Answer :=
  ⟨r.listing.query.cacheAndKey, r.started, r.access.stage r.listing.answer⟩

/-- How a step of a listing ends: with an empty answer, with the answer, or in front of the next
access. -/
inductive ListingProgress (listing : Listing) where
  | nothing
  | told (content : listing.Content)
  | next (access : Access listing.Content)

/-- A listing up to its first access. -/
def Listing.begins (listing : Listing) (io : Io) (s : State) : ListingProgress listing × State :=
  match listing.find s with
  | none => (.next .asking, s)
  | some found =>
    if found.1 < io.now then (.next .asking, s)
    else (.told found.2, s.note
      (.used listing.query.cacheAndKey.1 listing.query.entity listing.query.cacheAndKey.2))

/-- A listing from one access to the next. -/
def Lister.advance (r : Lister) (io : Io) (s : State) :
    Except Fault (ListingProgress r.listing × State) :=
  match r.access with
  | .asking => do
    let (payload, s) ← r.listing.ask io r.caller s
    return (payload.elim .nothing fun chunks ↦ .next (.parsing chunks r.listing.empty), s)
  | .parsing [] content =>
    return (.next (.priming (r.listing.learnt content) content), s)
  | .parsing (line :: chunks) content => do
    let (content, s) ← r.listing.parse s line content
    return (.next (.parsing chunks content), s)
  | .priming [] content => return (.next (.storing content), s)
  | .priming (did :: dids) content =>
    return (.next (.priming dids content), r.listing.prime s did)
  | .storing content =>
    return (.next .returning, r.listing.store s (r.started + chacheDuration, content))
  | .returning => do
    let content ← r.listing.readBack s
    return (.told content, s)

/-! ### The client -/

/-- What happens between the accesses of the listings. -/
inductive Meanwhile where
  | isContainer (path : Str)
  | isFile (path : Str)
  | size (path : Str)
  | authenticates (path : Str)
  /-- Login thread `k` ends. -/
  | loginEnds (k : ℕ)
  deriving DecidableEq, Repr

/-- The state of the client behind that. -/
def Meanwhile.run (io : Io) (caller : Caller) (s : State) : Meanwhile → Except Fault State
  | .isContainer path => Prod.snd <$> rucioIsContainer io path caller s
  | .isFile path => Prod.snd <$> rucioIsFile io path caller s
  | .size path => Prod.snd <$> rucioGetSize io path caller s
  | .authenticates path => Prod.snd <$> authenticateUser io path caller s
  | .loginEnds k => oidcLoginEnds io k s

/-- The state of the client and the listings that are under way. The last two fields are for the
record only. -/
structure Client where
  rest : State
  clock : ℤ
  listers : List Lister := []
  /-- What the listings have made of the answers of their servers and are about to store, with their
  keys and starts. -/
  made : List Fetch := []
  /-- What the listings have answered, with their keys and starts. -/
  answers : List Fetch := []

/-- One step of the client. -/
inductive ClientAction where
  | begins (io : Io) (listing : Listing) (caller : Caller)
  /-- Listing `k` goes on. -/
  | continues (k : ℕ) (io : Io)
  | meanwhile (io : Io) (caller : Caller) (what : Meanwhile)

/-- What the clock shows in a step. -/
def ClientAction.now : ClientAction → ℤ
  | .begins io _ _ | .continues _ io | .meanwhile io _ _ => io.now

namespace Client

/-- A new listing is under way, unless it has its answer already. -/
def enter (s : Client) (listing : Listing) (caller : Caller) (now : ℤ) :
    ListingProgress listing × State → Client
  | (.nothing, rest) => { s with rest }
  | (.told content, rest) => { s with
      rest
      answers := ⟨listing.query.cacheAndKey, now, listing.answer content⟩ :: s.answers }
  | (.next access, rest) => { s with
      rest
      listers := s.listers ++ [⟨listing, caller, now, access⟩] }

/-- Listing `k` is in front of its next access, unless it has its answer. -/
def settle (s : Client) (k : ℕ) (r : Lister) : ListingProgress r.listing × State → Client
  | (.nothing, rest) => { s with rest, listers := s.listers.eraseIdx k }
  | (.told content, rest) => { s with
      rest
      listers := s.listers.eraseIdx k
      answers := ⟨r.listing.query.cacheAndKey, r.started, r.listing.answer content⟩ :: s.answers }
  | (.next (.storing content), rest) => { s with
      rest
      listers := s.listers.set k { r with access := .storing content }
      made := ⟨r.listing.query.cacheAndKey, r.started, r.listing.answer content⟩ :: s.made }
  | (.next access, rest) => { s with rest, listers := s.listers.set k { r with access } }

/-- The client after an action that the clock allows. -/
def act (s : Client) : ClientAction → Option Client
  | .begins io listing caller => some (s.enter listing caller io.now (listing.begins io s.rest))
  | .continues k io =>
      s.listers[k]?.bind fun r ↦ (r.advance io s.rest).toOption.map (s.settle k r)
  | .meanwhile io caller what => (what.run io caller s.rest).toOption.map fun rest ↦ { s with rest }

/-- The client after an action. The clock does not go back. -/
def step (s : Client) (a : ClientAction) : Option Client :=
  if a.now < s.clock then none else { s with clock := a.now }.act a

end Client

/-- Who stores does so at most so many seconds after the look into the cache. -/
def StoresInTime (slack : ℕ) (s : Client) : ClientAction → Prop
  | .continues k io => ∀ r ∈ s.listers[k]?, r.call.stage.isStoring → io.now ≤ r.started + slack
  | .begins _ _ _ | .meanwhile _ _ _ => True

instance decidableStoresInTime (slack : ℕ) (s : Client) :
    ∀ a, Decidable (StoresInTime slack s a)
  | .continues k io =>
      inferInstanceAs (Decidable (∀ r ∈ s.listers[k]?,
        r.call.stage.isStoring → io.now ≤ r.started + slack))
  | .begins _ _ _ | .meanwhile _ _ _ => isTrue trivial

/-! ### The entries -/

/-- The entry under a key of the caches of the listings, and the end of its life. -/
def State.entryAt (s : State) : CacheName × Str → Option (ℤ × Answer)
  | (.scopes, key) => (s.scopesCache.find key).map fun found ↦ (found.1, .scopes found.2)
  | (.dids, key) => (s.didsCache.find key).map fun found ↦ (found.1, .dids found.2)
  | (.containerDids, key) =>
      (s.containerDidsCache.find key).map fun found ↦ (found.1, .dids found.2)
  | (.isContainer, _) | (.isFile, _) | (.fileSize, _) => none

section Entries

variable {io : Io} {caller : Caller} {s t : State}

/-- The entries are the same if the listings are. -/
theorem entryAt_eq_of_expiring (h : t.expiring = s.expiring) : t.entryAt = s.entryAt := by
  have hkey : ∀ key : Str, cacheKey [key, []] = key ∧ cacheKey [key, [], []] = key :=
    fun key ↦ by simp [cacheKey]
  funext ⟨cache, key⟩
  cases cache with
  | scopes => exact congrFun h (.scopes key)
  | dids =>
    have hdids := congrFun h (.dids key [])
    rwa [State.expiring, State.expiring, (hkey key).1] at hdids
  | containerDids =>
    have hdids := congrFun h (.containerDids key [] [])
    rwa [State.expiring, State.expiring, (hkey key).2] at hdids
  | isContainer | isFile | fileSize => rfl

theorem map_find_eq_entryAt (listing : Listing) (s : State) :
    (listing.find s).map (fun found ↦ (found.1, listing.answer found.2)) =
      s.entryAt listing.query.cacheAndKey := by
  cases listing <;> rfl

theorem find_store (listing : Listing) (s : State) (entry : ℤ × listing.Content) :
    listing.find (listing.store s entry) = some entry := by
  cases listing <;> exact Table.find_insert_self _ _ entry

/-- `set_value` changes one entry. -/
theorem entryAt_store (listing : Listing) (s : State) (entry : ℤ × listing.Content)
    (key : CacheName × Str) :
    (listing.store s entry).entryAt key =
      if key = listing.query.cacheAndKey then some (entry.1, listing.answer entry.2)
      else s.entryAt key := by
  obtain ⟨cache, key⟩ := key
  cases listing with
  | scopes server =>
    cases cache with
    | scopes => simp [Listing.store, Listing.query, Query.cacheAndKey, State.entryAt,
        State.setScopes, State.note, Table.map_find_insert, Listing.answer]
    | dids | containerDids | isContainer | isFile | fileSize => rfl
  | dids server scope =>
    cases cache with
    | dids => simp [Listing.store, Listing.query, Query.cacheAndKey, State.entryAt,
        State.setDids, State.note, Table.map_find_insert, Listing.answer]
    | scopes | containerDids | isContainer | isFile | fileSize => rfl
  | containerDids server scope name =>
    cases cache with
    | containerDids => simp [Listing.store, Listing.query, Query.cacheAndKey, State.entryAt,
        State.setContainerDids, State.note, Table.map_find_insert, Listing.answer]
    | scopes | dids | isContainer | isFile | fileSize => rfl

theorem quiet_askScopes {server : Str} {payload : Option (List Str)}
    (h : askScopes io server caller s = .ok (payload, t)) : Quiet s t := by
  obtain ⟨⟨headers, s₁⟩, hheaders, hrun⟩ := bind_eq_ok.1 h
  have hquiet := quiet_getAuthHeaders hheaders
  simp only at hrun
  split at hrun
  · rename_i fields params _
    simp only [safeGET_eq] at hrun
    obtain ⟨-, rfl⟩ := Prod.mk.inj (Except.ok.inj hrun)
    exact hquiet.trans (quiet_curlGET io (dataRequest params "/scopes/".toList fields) s₁)
  · obtain ⟨-, rfl⟩ := Prod.mk.inj (Except.ok.inj hrun)
    exact hquiet

theorem quiet_askDids {server resource : Str} {payload : Option (List Str)}
    (h : askDids io server resource caller s = .ok (payload, t)) : Quiet s t := by
  obtain ⟨⟨headers, s₁⟩, hheaders, hrun⟩ := bind_eq_ok.1 h
  have hquiet := quiet_getAuthHeaders hheaders
  rcases headers with - | fields
  · obtain ⟨-, rfl⟩ := Prod.mk.inj (Except.ok.inj hrun)
    exact hquiet
  obtain ⟨params, -, hsend⟩ := bind_eq_ok.1 hrun
  simp only [safeGET_eq] at hsend
  obtain ⟨-, rfl⟩ := Prod.mk.inj (Except.ok.inj hsend)
  exact hquiet.trans (quiet_curlGET io (dataRequest params resource fields) s₁)

/-- **Asking changes no listing**, -/
theorem entryAt_ask {listing : Listing} {payload : Option (List Str)}
    (h : listing.ask io caller s = .ok (payload, t)) : t.entryAt = s.entryAt := by
  refine entryAt_eq_of_expiring (Quiet.expiring ?_)
  cases listing with
  | scopes => exact quiet_askScopes h
  | dids | containerDids => exact quiet_askDids h

theorem entryAt_parseChunk {line : Str} {dids dids' : List RucioDid}
    {structurize : Str → Str → List RucioDid → Except Fault (Str × List RucioDid)}
    (h : parseChunk structurize s line dids = .ok (dids', t)) : t.entryAt = s.entryAt := by
  obtain ⟨parsed, -, hret⟩ := bind_eq_ok.1 h
  obtain ⟨-, rfl⟩ := Prod.mk.inj (Except.ok.inj hret)
  exact entryAt_eq_of_expiring (expiring_eq_of_caches rfl rfl rfl)

/-- nor does parsing, -/
theorem entryAt_parse {listing : Listing} {line : Str} {content content' : listing.Content}
    (h : listing.parse s line content = .ok (content', t)) : t.entryAt = s.entryAt := by
  cases listing with
  | scopes =>
    obtain ⟨scopes, -, hret⟩ := bind_eq_ok.1 h
    obtain ⟨-, rfl⟩ := Prod.mk.inj (Except.ok.inj hret)
    rfl
  | dids | containerDids => exact entryAt_parseChunk h

/-- nor does what the lookups are told. -/
theorem entryAt_prime (listing : Listing) (s : State) (did : RucioDid) :
    (listing.prime s did).entryAt = s.entryAt := by
  cases listing with
  | scopes => rfl
  | dids | containerDids =>
    exact entryAt_eq_of_expiring (expiring_eq_of_caches rfl rfl rfl)

/-- Nothing else that happens changes a listing. -/
theorem entryAt_meanwhile {what : Meanwhile} (h : what.run io caller s = .ok t) :
    t.entryAt = s.entryAt := by
  refine entryAt_eq_of_expiring ?_
  -- these calls write to the caches of single files, or to none: no listing has its entry there
  cases what with
  | isContainer path =>
    obtain ⟨⟨value, t'⟩, hcall, rfl⟩ := map_eq_ok h
    obtain ⟨scope, name, -, ⟨found, -, -, rfl⟩ | ⟨-, payload, s₁, hexchanged, hend⟩⟩ :=
      rucioIsContainer_eq_ok hcall
    · exact expiring_note _
    · rcases hend with ⟨-, -, rfl⟩ | ⟨front, chunks, -, -, rfl⟩
      · exact hexchanged.expiring
      · exact (expiring_eq_of_caches rfl rfl rfl).trans hexchanged.expiring
  | isFile path =>
    obtain ⟨⟨value, t'⟩, hcall, rfl⟩ := map_eq_ok h
    obtain ⟨scope, name, -, ⟨-, rfl⟩ | ⟨-, payload, s₁, hexchanged, hend⟩⟩ :=
      rucioIsFile_eq_ok hcall
    · exact expiring_note _
    · rcases hend with ⟨-, -, rfl⟩ | ⟨front, chunks, -, -, rfl⟩
      · exact hexchanged.expiring
      · exact (expiring_eq_of_caches rfl rfl rfl).trans hexchanged.expiring
  | size path =>
    obtain ⟨⟨size, t'⟩, hcall, rfl⟩ := map_eq_ok h
    obtain ⟨scope, name, -, ⟨found, -, -, rfl⟩ | ⟨-, payload, s₁, hexchanged, hend⟩⟩ :=
      rucioGetSize_eq_ok hcall
    · exact expiring_note _
    · rcases hend with ⟨-, -, rfl⟩ | ⟨chunks, -, -, -, rfl⟩ | ⟨chunks, -, -, rfl⟩
      · exact hexchanged.expiring
      · exact hexchanged.expiring
      · exact (expiring_eq_of_caches rfl rfl rfl).trans hexchanged.expiring
  | authenticates path =>
    obtain ⟨⟨result, t'⟩, hauth, rfl⟩ := map_eq_ok h
    exact (quiet_authenticateUser hauth).expiring
  | loginEnds k => exact (quiet_oidcLoginEnds h).expiring

end Entries

/-! ### A listing that nobody interrupts -/

/-- The loop over the chunks, in one piece. -/
def Listing.parseAll (listing : Listing) :
    State → List Str → listing.Content → Except Fault (listing.Content × State)
  | s, [], content => return (content, s)
  | s, line :: chunks, content => do
    let (content, s) ← listing.parse s line content
    listing.parseAll s chunks content

/-- The loop over the DIDs, in one piece. -/
def Listing.primeAll (listing : Listing) (s : State) (dids : List RucioDid) : State :=
  dids.foldl (fun s did ↦ listing.prime s did) s

/-- What a listing does with the answer of its server, in one piece. -/
def Listing.finish (listing : Listing) (io : Io) (s : State) :
    Option (List Str) → Except Fault (listing.Content × State)
  | none => return (listing.empty, s)
  | some chunks => do
    let (content, s) ← listing.parseAll s chunks listing.empty
    return (content, listing.store (listing.primeAll s (listing.learnt content))
      (io.now + chacheDuration, content))

/-- How a listing goes in one piece: it uses an entry, it has nothing to store, or it stores what it
has parsed. -/
inductive Listing.Ends (io : Io) (caller : Caller) (s : State) (listing : Listing) :
    Answer → State → Prop
  | used {content : listing.Content} {t : State}
      (hbegins : listing.begins io s = (.told content, t)) :
      Ends io caller s listing (listing.answer content) t
  | nothing {t : State} (hbegins : listing.begins io s = (.next .asking, s))
      (hask : listing.ask io caller s = .ok (none, t)) :
      Ends io caller s listing listing.query.nothing t
  | stored {chunks : List Str} {content : listing.Content} {t u : State}
      (hbegins : listing.begins io s = (.next .asking, s))
      (hask : listing.ask io caller s = .ok (some chunks, t))
      (hparse : listing.parseAll t chunks listing.empty = .ok (content, u)) :
      Ends io caller s listing (listing.answer content)
        (listing.store (listing.primeAll u (listing.learnt content))
          (io.now + chacheDuration, content))

section Uninterrupted

variable {io : Io} {caller : Caller} {s t : State}

/-- The loops over chunks are those of the functions of the program. -/
theorem parseAll_scopes (server : Str) (s : State) (chunks : List Str) : ∀ scopes : List Str,
    (Listing.scopes server).parseAll s chunks scopes =
      tokenizeAll chunks scopes >>= fun scopes ↦ pure (scopes, s) := by
  induction chunks with
  | nil => exact fun _ ↦ rfl
  | cons line chunks ih =>
    intro scopes
    rw [Listing.parseAll, tokenizeAll, Listing.parse, bind_assoc, bind_assoc]
    exact bind_congr fun got ↦ ih got

/-- One turn of the loop over the chunks of a DID listing. -/
theorem structurizeAll_cons_bind
    (structurize : Str → Str → List RucioDid → Except Fault (Str × List RucioDid)) (s : State)
    (line : Str) (chunks : List Str) (dids : List RucioDid) :
    (structurizeAll structurize s.didStringRemainder (line :: chunks) dids >>= fun parsed ↦
        pure (parsed.2, { s with didStringRemainder := parsed.1 })) =
      parseChunk structurize s line dids >>= fun got ↦
        structurizeAll structurize got.2.didStringRemainder chunks got.1 >>= fun parsed ↦
          pure (parsed.2, { got.2 with didStringRemainder := parsed.1 }) := by
  rw [structurizeAll, parseChunk, bind_assoc, bind_assoc]
  rfl

theorem parseAll_dids (server scope : Str) (chunks : List Str) :
    ∀ (s : State) (dids : List RucioDid),
    (Listing.dids server scope).parseAll s chunks dids =
      structurizeAll structurizeDid s.didStringRemainder chunks dids >>= fun parsed ↦
        pure (parsed.2, { s with didStringRemainder := parsed.1 }) := by
  induction chunks with
  | nil => exact fun _ _ ↦ rfl
  | cons line chunks ih =>
    intro s dids
    rw [structurizeAll_cons_bind, Listing.parseAll, Listing.parse]
    exact bind_congr fun got ↦ ih got.2 got.1

theorem parseAll_containerDids (server scope name : Str) (chunks : List Str) :
    ∀ (s : State) (dids : List RucioDid),
    (Listing.containerDids server scope name).parseAll s chunks dids =
      structurizeAll structurizeContainerDid s.didStringRemainder chunks dids >>= fun parsed ↦
        pure (parsed.2, { s with didStringRemainder := parsed.1 }) := by
  induction chunks with
  | nil => exact fun _ _ ↦ rfl
  | cons line chunks ih =>
    intro s dids
    rw [structurizeAll_cons_bind, Listing.parseAll, Listing.parse]
    exact bind_congr fun got ↦ ih got.2 got.1

/-- The listing of the scopes asks, parses and stores. -/
theorem fetchScopes_eq (io : Io) (server : Str) (caller : Caller) (s : State) :
    fetchScopes io server caller s = askScopes io server caller s >>= fun told ↦
      (Listing.scopes server).finish io told.2 told.1 := by
  rw [fetchScopes, askScopes, bind_assoc]
  refine bind_congr fun result ↦ ?_
  obtain ⟨headers, s₁⟩ := result
  rcases headers with - | fields
  · rfl
  simp only
  rcases getServerParams s₁.servers server with - | params
  · rfl
  simp only
  rcases safeGET io (dataRequest params "/scopes/".toList fields) s₁ with ⟨curlRes, s₂⟩
  simp only [CurlRet.chunks, pure_eq_ok, ok_bind]
  rcases curlRes.ok with - | -
  · rfl
  · show _ = (Listing.scopes server).parseAll s₂ curlRes.payload [] >>= fun got ↦ _
    rw [parseAll_scopes, bind_assoc]
    rfl

/-- The two DID listings ask, parse, tell the lookups, and store. -/
theorem fetchDids_eq (io : Io) (server scope resource : Str) (caller : Caller)
    (structurize : Str → Str → List RucioDid → Except Fault (Str × List RucioDid))
    (store : State → ℤ × List RucioDid → State) (s : State) :
    fetchDids io server scope resource caller structurize store s =
      askDids io server resource caller s >>= fun told ↦ told.1.elim (pure ([], told.2))
        fun chunks ↦ parseDids structurize chunks told.2 >>= fun parsed ↦
          pure (parsed.1, store (parsed.2.primeLookups server scope parsed.1)
            (io.now + chacheDuration, parsed.1)) := by
  rw [fetchDids, askDids, bind_assoc]
  refine bind_congr fun result ↦ ?_
  obtain ⟨headers, s₁⟩ := result
  rcases headers with - | fields
  · rfl
  simp only [bind_assoc]
  refine bind_congr fun params ↦ ?_
  rcases safeGET io (dataRequest params resource fields) s₁ with ⟨curlRes, s₂⟩
  simp only [CurlRet.chunks, pure_eq_ok, ok_bind]
  rcases curlRes.ok with - | -
  · rfl
  · rfl

theorem fetchDids_eq_finish (io : Io) (server scope : Str) (caller : Caller) (s : State) :
    fetchDids io server scope ("/dids/".toList ++ scope ++ ['/']) caller structurizeDid
        (fun s entry ↦ s.setDids [server, scope] entry) s =
      (Listing.dids server scope).ask io caller s >>= fun told ↦
        (Listing.dids server scope).finish io told.2 told.1 := by
  rw [fetchDids_eq]
  refine bind_congr fun told ↦ ?_
  obtain ⟨payload, s₁⟩ := told
  rcases payload with - | chunks
  · rfl
  · show parseDids structurizeDid chunks s₁ >>= (fun parsed ↦ _) =
      (Listing.dids server scope).parseAll s₁ chunks [] >>= fun got ↦ _
    rw [parseAll_dids]
    rfl

theorem fetchContainerDids_eq_finish (io : Io) (server scope name : Str) (caller : Caller)
    (s : State) :
    fetchDids io server scope ("/dids/".toList ++ scope ++ ['/'] ++ name ++ "/dids".toList) caller
        structurizeContainerDid (fun s entry ↦ s.setContainerDids [server, scope, name] entry) s =
      (Listing.containerDids server scope name).ask io caller s >>= fun told ↦
        (Listing.containerDids server scope name).finish io told.2 told.1 := by
  rw [fetchDids_eq]
  refine bind_congr fun told ↦ ?_
  obtain ⟨payload, s₁⟩ := told
  rcases payload with - | chunks
  · rfl
  · show parseDids structurizeContainerDid chunks s₁ >>= (fun parsed ↦ _) =
      (Listing.containerDids server scope name).parseAll s₁ chunks [] >>= fun got ↦ _
    rw [parseAll_containerDids]
    rfl

theorem begins_of_used (listing : Listing) {expiry : ℤ} {content : listing.Content}
    (hfind : listing.find s = some (expiry, content)) (hfresh : io.now ≤ expiry) :
    listing.begins io s = (.told content, s.note
      (.used listing.query.cacheAndKey.1 listing.query.entity listing.query.cacheAndKey.2)) := by
  rw [Listing.begins, hfind]
  exact if_neg (Int.not_lt.2 hfresh)

theorem begins_of_stale (listing : Listing)
    (hstale : ∀ entry, listing.find s = some entry → entry.1 < io.now) :
    listing.begins io s = (.next .asking, s) := by
  rw [Listing.begins]
  rcases hfind : listing.find s with - | found
  · rfl
  · exact if_pos (hstale found hfind)

/-- A listing that asks. -/
theorem ends_of_finish (listing : Listing) {content : listing.Content}
    (hnothing : listing.answer listing.empty = listing.query.nothing)
    (hstale : ∀ entry, listing.find s = some entry → entry.1 < io.now)
    (h : (listing.ask io caller s >>= fun told ↦ listing.finish io told.2 told.1) =
      .ok (content, t)) :
    listing.Ends io caller s (listing.answer content) t := by
  obtain ⟨⟨payload, s₁⟩, hask, hfinish⟩ := bind_eq_ok.1 h
  rcases payload with - | chunks
  · obtain ⟨rfl, rfl⟩ := Prod.mk.inj (Except.ok.inj hfinish)
    rw [hnothing]
    exact .nothing (begins_of_stale listing hstale) hask
  · obtain ⟨⟨content', s₂⟩, hparse, hret⟩ := bind_eq_ok.1 hfinish
    obtain ⟨rfl, rfl⟩ := Prod.mk.inj (Except.ok.inj hret)
    exact .stored (begins_of_stale listing hstale) hask hparse

/-- A call of a listing ends in one of these ways. -/
theorem ends_of_run {listing : Listing} {answer : Answer}
    (h : RestCall.run ⟨io, caller, listing.query⟩ s = .ok (answer, t)) :
    listing.Ends io caller s answer t := by
  cases listing with
  | scopes server =>
    obtain ⟨⟨scopes, t'⟩, hcall, hret⟩ := bind_eq_ok.1 h
    obtain ⟨rfl, rfl⟩ := Prod.mk.inj (Except.ok.inj hret)
    rcases rucioListScopes_eq_ok hcall with ⟨hfetch, hstale⟩ | ⟨expiry, hfind, hfresh, rfl⟩
    · rw [fetchScopes_eq] at hfetch
      exact ends_of_finish (.scopes server) rfl hstale hfetch
    · exact .used (begins_of_used (.scopes server) hfind hfresh)
  | dids server scope =>
    obtain ⟨⟨dids, t'⟩, hcall, hret⟩ := bind_eq_ok.1 h
    obtain ⟨rfl, rfl⟩ := Prod.mk.inj (Except.ok.inj hret)
    rcases rucioListDids_eq_ok hcall with ⟨hfetch, hstale⟩ | ⟨expiry, hfind, hfresh, rfl⟩
    · rw [fetchDids_eq_finish] at hfetch
      exact ends_of_finish (.dids server scope) rfl hstale hfetch
    · exact .used (begins_of_used (.dids server scope) hfind hfresh)
  | containerDids server scope name =>
    obtain ⟨⟨dids, t'⟩, hcall, hret⟩ := bind_eq_ok.1 h
    obtain ⟨rfl, rfl⟩ := Prod.mk.inj (Except.ok.inj hret)
    rcases rucioListContainerDids_eq_ok hcall with ⟨hfetch, hstale⟩ | ⟨expiry, hfind, hfresh, rfl⟩
    · rw [fetchContainerDids_eq_finish] at hfetch
      exact ends_of_finish (.containerDids server scope name) rfl hstale hfetch
    · exact .used (begins_of_used (.containerDids server scope name) hfind hfresh)

/-- A client whose listing `k` goes on, and on. -/
def Client.GoesOn (k : ℕ) (io : Io) : Client → Client → Prop :=
  Relation.ReflTransGen fun c d ↦ c.step (.continues k io) = some d

theorem Client.GoesOn.head {k : ℕ} {c d e : Client} (h : c.step (.continues k io) = some d)
    (hrest : d.GoesOn k io e) : c.GoesOn k io e :=
  Relation.ReflTransGen.head h hrest

/-- These are runs. -/
theorem Client.GoesOn.exists_exec {k : ℕ} {c d : Client} (h : c.GoesOn k io d) :
    ∃ n, exec Client.step c (List.replicate n (.continues k io)) = some d := by
  induction h with
  | refl => exact ⟨0, rfl⟩
  | tail _ hstep ih =>
    obtain ⟨n, hn⟩ := ih
    refine ⟨n + 1, ?_⟩
    rw [List.replicate_succ', exec_append, hn, Option.bind_some, exec_cons, hstep]
    rfl

variable {clock : ℤ} {listers : List Lister} {made answers : List Fetch} {r : Lister}
  {progress : ListingProgress r.listing}

/-- A step of the last listing. -/
theorem lastStep (h : r.advance io s = .ok (progress, t)) :
    Client.step ⟨s, io.now, listers ++ [r], made, answers⟩ (.continues listers.length io) =
      some (Client.settle ⟨s, io.now, listers ++ [r], made, answers⟩ listers.length r
        (progress, t)) := by
  rw [Client.step, ClientAction.now, if_neg (lt_irrefl _)]
  show (listers ++ [r])[listers.length]?.bind _ = _
  rw [List.getElem?_concat_length, Option.bind_some, h]
  rfl

theorem eraseIdx_last (listers : List Lister) (r : Lister) :
    (listers ++ [r]).eraseIdx listers.length = listers := by
  rw [List.eraseIdx_append_of_length_le le_rfl, Nat.sub_self, List.eraseIdx_cons_zero,
    List.append_nil]

theorem set_last (listers : List Lister) (r r' : Lister) :
    (listers ++ [r]).set listers.length r' = listers ++ [r'] := by
  rw [List.set_append_right _ _ le_rfl, Nat.sub_self, List.set_cons_zero]

theorem lastStep_nothing (h : r.advance io s = .ok (.nothing, t)) :
    Client.step ⟨s, io.now, listers ++ [r], made, answers⟩ (.continues listers.length io) =
      some ⟨t, io.now, listers, made, answers⟩ := by
  rw [lastStep h, Client.settle, eraseIdx_last]

theorem lastStep_told {content : r.listing.Content}
    (h : r.advance io s = .ok (.told content, t)) :
    Client.step ⟨s, io.now, listers ++ [r], made, answers⟩ (.continues listers.length io) =
      some ⟨t, io.now, listers, made,
        ⟨r.listing.query.cacheAndKey, r.started, r.listing.answer content⟩ :: answers⟩ := by
  rw [lastStep h, Client.settle, eraseIdx_last]

theorem lastStep_storing {content : r.listing.Content}
    (h : r.advance io s = .ok (.next (.storing content), t)) :
    Client.step ⟨s, io.now, listers ++ [r], made, answers⟩ (.continues listers.length io) =
      some ⟨t, io.now, listers ++ [{ r with access := .storing content }],
        ⟨r.listing.query.cacheAndKey, r.started, r.listing.answer content⟩ :: made, answers⟩ := by
  rw [lastStep h, Client.settle, set_last]

theorem lastStep_next {access : Access r.listing.Content}
    (haccess : ∀ content, access ≠ .storing content)
    (h : r.advance io s = .ok (.next access, t)) :
    Client.step ⟨s, io.now, listers ++ [r], made, answers⟩ (.continues listers.length io) =
      some ⟨t, io.now, listers ++ [{ r with access }], made, answers⟩ := by
  rw [lastStep h, Client.settle, set_last]
  exact haccess

/-- The last listing parses its chunks. -/
theorem goesOn_parsing (listing : Listing) (started : ℤ) (chunks : List Str) :
    ∀ {s : State} {content content' : listing.Content},
    listing.parseAll s chunks content = .ok (content', t) →
    Client.GoesOn listers.length io
      ⟨s, io.now, listers ++ [⟨listing, caller, started, .parsing chunks content⟩], made, answers⟩
      ⟨t, io.now, listers ++ [⟨listing, caller, started, .parsing [] content'⟩], made,
        answers⟩ := by
  induction chunks with
  | nil =>
    intro s content content' h
    obtain ⟨rfl, rfl⟩ := Prod.mk.inj (Except.ok.inj h)
    exact .refl
  | cons line chunks ih =>
    intro s content content' h
    obtain ⟨⟨got, u⟩, hparse, hrest⟩ := bind_eq_ok.1 h
    have hadvance : (Lister.mk listing caller started (.parsing (line :: chunks) content)).advance
        io s = .ok (.next (.parsing chunks got), u) := by
      show (listing.parse s line content >>= fun told ↦ _) = _
      rw [hparse]
      rfl
    exact Client.GoesOn.head (lastStep_next (by simp) hadvance) (ih hrest)

/-- The last listing tells the caches of the lookups. -/
theorem goesOn_priming (listing : Listing) (started : ℤ) (content : listing.Content)
    (dids : List RucioDid) : ∀ s : State,
    Client.GoesOn listers.length io
      ⟨s, io.now, listers ++ [⟨listing, caller, started, .priming dids content⟩], made, answers⟩
      ⟨listing.primeAll s dids, io.now,
        listers ++ [⟨listing, caller, started, .priming [] content⟩], made, answers⟩ := by
  induction dids with
  | nil => exact fun _ ↦ .refl
  | cons did dids ih =>
    intro s
    exact Client.GoesOn.head (lastStep_next (by simp) rfl) (ih (listing.prime s did))

/-- The last listing, from the answer of its server on. -/
theorem goesOn_answered (listing : Listing) {chunks : List Str} {content : listing.Content}
    (h : listing.parseAll s chunks listing.empty = .ok (content, t)) :
    let stored := listing.store (listing.primeAll t (listing.learnt content))
      (io.now + chacheDuration, content)
    let told : Fetch := ⟨listing.query.cacheAndKey, io.now, listing.answer content⟩
    Client.GoesOn listers.length io
      ⟨s, io.now, listers ++ [⟨listing, caller, io.now, .parsing chunks listing.empty⟩], made,
        answers⟩
      ⟨stored, io.now, listers, told :: made, told :: answers⟩ := by
  intro stored told
  have hback : (Lister.mk listing caller io.now .returning).advance io stored =
      .ok (.told content, stored) := by
    show (listing.readBack stored >>= fun told ↦ _) = _
    rw [Listing.readBack, find_store]
    rfl
  -- the chunks, the DIDs, and the three steps behind them
  refine (goesOn_parsing listing io.now chunks h).trans ?_
  refine Client.GoesOn.head (lastStep_next (by simp) rfl) ?_
  refine (goesOn_priming listing io.now content (listing.learnt content) t).trans ?_
  refine Client.GoesOn.head (lastStep_storing rfl) ?_
  refine Client.GoesOn.head (lastStep_next (by simp) rfl) ?_
  exact .single (lastStep_told hback)

/-- **A listing that nobody interrupts does what it does in one piece.** -/
theorem exec_uninterrupted_listing {c : Client} {listing : Listing} {answer : Answer}
    (hnow : c.clock ≤ io.now)
    (h : RestCall.run ⟨io, caller, listing.query⟩ c.rest = .ok (answer, t)) :
    ∃ n d, exec Client.step c
        (.begins io listing caller :: List.replicate n (.continues c.listers.length io)) = some d ∧
      d.rest = t ∧ d.listers = c.listers ∧
      (d.answers = ⟨listing.query.cacheAndKey, io.now, answer⟩ :: c.answers ∨
        answer = listing.query.nothing ∧ d.answers = c.answers) := by
  obtain ⟨rest, clock, listers, made, answers⟩ := c
  have hbegins : Client.step ⟨rest, clock, listers, made, answers⟩ (.begins io listing caller) =
      some (Client.enter ⟨rest, io.now, listers, made, answers⟩ listing caller io.now
        (listing.begins io rest)) :=
    if_neg (Int.not_lt.2 hnow)
  -- the three ends of the call in one piece are three lengths of the same run: no access, the
  -- question alone, or the question, a parse for each piece and the store
  cases ends_of_run h with
  | @used content _ hused =>
    refine ⟨0, ⟨t, io.now, listers, made, ⟨_, io.now, listing.answer content⟩ :: answers⟩,
      ?_, rfl, rfl, .inl rfl⟩
    rw [exec_cons, hbegins, hused]
    rfl
  | nothing hstale hask =>
    have hadvance : (Lister.mk listing caller io.now .asking).advance io rest =
        .ok (.nothing, t) := by
      show (listing.ask io caller rest >>= fun told ↦ _) = _
      rw [hask]
      rfl
    refine ⟨1, ⟨t, io.now, listers, made, answers⟩, ?_, rfl, rfl, .inr ⟨rfl, rfl⟩⟩
    rw [exec_cons, hbegins, hstale, Option.bind_some, List.replicate_one, exec_cons,
      Client.enter, lastStep_nothing hadvance]
    rfl
  | @stored chunks content s₁ s₂ hstale hask hparse =>
    have hadvance : (Lister.mk listing caller io.now .asking).advance io rest =
        .ok (.next (.parsing chunks listing.empty), s₁) := by
      show (listing.ask io caller rest >>= fun told ↦ _) = _
      rw [hask]
      rfl
    obtain ⟨n, hn⟩ := Client.GoesOn.exists_exec
      (Client.GoesOn.head (lastStep_next (by simp) hadvance) (goesOn_answered listing hparse))
    let stored := listing.store (listing.primeAll s₂ (listing.learnt content))
      (io.now + chacheDuration, content)
    let told : Fetch := ⟨listing.query.cacheAndKey, io.now, listing.answer content⟩
    refine ⟨n, ⟨stored, io.now, listers, told :: made, told :: answers⟩, ?_, rfl, rfl, .inl rfl⟩
    rw [exec_cons, hbegins, hstale, Option.bind_some]
    exact hn

end Uninterrupted

/-! ### What overlapping listings keep -/

/-- A listing that had started then has made this of the answer of its server. -/
def Client.Made (s : Client) (key : CacheName × Str) (asked : ℤ) (answer : Answer) : Prop :=
  (⟨key, asked, answer⟩ : Fetch) ∈ s.made

/-- An answer is what a listing for the same key has made of its server's, and that listing has
started at most so many seconds before the one that answers. -/
def Client.Tells (s : Client) (age : ℤ) (told : Fetch) : Prop :=
  ∃ asked, s.Made told.key asked told.listing ∧ told.start - age ≤ asked

/-- The invariant. -/
structure Client.Fresh (slack : ℕ) (s : Client) : Prop where
  sound : Sound chacheDuration slack s.Made s.clock s.rest.entryAt (s.listers.map Lister.call)
  answers : ∀ told ∈ s.answers, s.Tells (max chacheDuration slack) told

section Steps

variable {slack : ℕ} {s t : Client} {io : Io}

/-- The clock goes on. -/
theorem Client.Fresh.tick (h : s.Fresh slack) {now : ℤ} (hnow : s.clock ≤ now) :
    ({ s with clock := now } : Client).Fresh slack :=
  ⟨h.sound.tick hnow, h.answers⟩

/-- The calls of the listings, with one of them in front. -/
theorem call_cons_subset {listers : List Lister} {k : ℕ} {r : Lister} (h : listers[k]? = some r) :
    r.call :: (listers.eraseIdx k).map Lister.call ⊆ listers.map Lister.call := by
  obtain ⟨hk, rfl⟩ := List.getElem?_eq_some_iff.1 h
  exact ((List.getElem_cons_eraseIdx_perm hk).map Lister.call).subset

theorem call_set_subset {listers : List Lister} {k : ℕ} {r : Lister} (h : listers[k]? = some r)
    (r' : Lister) :
    (listers.set k r').map Lister.call ⊆ r'.call :: (listers.eraseIdx k).map Lister.call := by
  obtain ⟨hk, -⟩ := List.getElem?_eq_some_iff.1 h
  exact ((List.set_perm_cons_eraseIdx hk r').map Lister.call).subset

/-- **A listing starts.** -/
theorem Client.Fresh.begins (h : s.Fresh slack) (listing : Listing) (caller : Caller)
    (hnow : s.clock = io.now) :
    (s.enter listing caller io.now (listing.begins io s.rest)).Fresh slack := by
  have hentry := map_find_eq_entryAt listing s.rest
  have hjoined : Sound chacheDuration slack s.Made s.clock s.rest.entryAt
      ((s.listers ++ [(⟨listing, caller, io.now, .asking⟩ : Lister)]).map Lister.call) := by
    refine (h.sound.joined listing.query.cacheAndKey).sub fun c hc ↦ ?_
    rw [List.map_append, List.mem_append, List.map_singleton, List.mem_singleton] at hc
    rcases hc with hc | rfl
    · exact List.mem_cons_of_mem _ hc
    · rw [hnow]
      exact List.mem_cons_self
  rw [Listing.begins]
  rcases hfind : listing.find s.rest with - | ⟨expiry, content⟩
  · exact ⟨hjoined, h.answers⟩
  · simp only
    split_ifs with hstale
    · exact ⟨hjoined, h.answers⟩
    · rw [hfind, Option.map_some] at hentry
      obtain ⟨asked, hfetched, hyoung⟩ := h.sound.hit hentry.symm (Int.not_lt.1 hstale)
      have hage : io.now - max chacheDuration slack ≤ asked :=
        Int.le_trans (Int.sub_le_sub_left (Int.le_max_left _ _) _) hyoung
      refine ⟨?_, fun told htold ↦ ?_⟩
      · have hsame := entryAt_eq_of_expiring (expiring_note (s := s.rest)
          (.used listing.query.cacheAndKey.1 listing.query.entity listing.query.cacheAndKey.2))
        exact hsame.symm ▸ h.sound
      · rcases List.mem_cons.1 htold with rfl | hold
        · exact ⟨asked, hfetched, hage⟩
        · exact h.answers told hold

/-- A listing goes on, without the entries noticing. -/
theorem Client.Fresh.quiet (h : s.Fresh slack) {k : ℕ} {r r' : Lister} {rest : State}
    (hr : s.listers[k]? = some r) (hentries : rest.entryAt = s.rest.entryAt)
    (hcall : r'.call = r.call) :
    ({ s with rest, listers := s.listers.set k r' } : Client).Fresh slack := by
  refine ⟨?_, h.answers⟩
  have hset := (h.sound.sub (call_cons_subset hr)).sub (hcall ▸ call_set_subset hr r')
  exact hentries.symm ▸ hset

/-- A listing knows what it will store. -/
theorem Client.Fresh.knows (h : s.Fresh slack) {k : ℕ} {listing : Listing} {caller : Caller}
    {started : ℤ} {content : listing.Content}
    (hr : s.listers[k]? = some ⟨listing, caller, started, .priming [] content⟩) :
    ({ s with
      listers := s.listers.set k ⟨listing, caller, started, .storing content⟩
      made := ⟨listing.query.cacheAndKey, started, listing.answer content⟩ :: s.made } :
        Client).Fresh slack := by
  have hmore : ∀ key asked answer, s.Made key asked answer →
      (⟨key, asked, answer⟩ : Fetch) ∈ (⟨listing.query.cacheAndKey, started,
        listing.answer content⟩ : Fetch) :: s.made :=
    fun key asked answer hmem ↦ List.mem_cons_of_mem _ hmem
  have hmade : (⟨listing.query.cacheAndKey, started, listing.answer content⟩ : Fetch) ∈
      (⟨listing.query.cacheAndKey, started, listing.answer content⟩ : Fetch) :: s.made :=
    List.mem_cons_self
  have hsound := ((h.sound.sub (call_cons_subset hr)).mono hmore).fetched hmade
  refine ⟨hsound.sub (call_set_subset hr _), fun told htold ↦ ?_⟩
  obtain ⟨asked, hbefore, hyoung⟩ := h.answers told htold
  exact ⟨asked, hmore _ _ _ hbefore, hyoung⟩

/-- **A listing goes on.** -/
theorem Client.Fresh.continues (h : s.Fresh slack) {k : ℕ} (hnow : s.clock = io.now)
    (hintime : StoresInTime slack s (.continues k io)) (hact : s.act (.continues k io) = some t) :
    t.Fresh slack := by
  obtain ⟨r, hr, hact⟩ := Option.bind_eq_some_iff.1 hact
  obtain ⟨⟨progress, rest⟩, hadvance, rfl⟩ := map_toOption_eq_some hact
  have hfront := h.sound.sub (call_cons_subset hr)
  have hothers : (s.listers.eraseIdx k).map Lister.call ⊆ s.listers.map Lister.call :=
    List.Subset.trans (List.subset_cons_self _ _) (call_cons_subset hr)
  -- one case for each access of a listing: only `storing` touches its own entry and only
  -- `returning` gives an answer, the others leave every entry as it stands
  obtain ⟨listing, caller, started, access⟩ := r
  rcases access with - | ⟨- | ⟨line, chunks⟩, content⟩ | ⟨- | ⟨did, dids⟩, content⟩ | content | -
  case asking =>
    obtain ⟨⟨payload, rest'⟩, hask, hret⟩ := bind_eq_ok.1 hadvance
    obtain ⟨rfl, rfl⟩ := Prod.mk.inj (Except.ok.inj hret)
    have hsame := entryAt_ask hask
    rcases payload with - | chunks
    · exact ⟨hsame.symm ▸ h.sound.sub hothers, h.answers⟩
    · exact h.quiet hr hsame rfl
  case parsing.nil =>
    obtain ⟨rfl, rfl⟩ := Prod.mk.inj (Except.ok.inj hadvance)
    exact h.quiet hr rfl rfl
  case parsing.cons =>
    obtain ⟨⟨content', rest'⟩, hparse, hret⟩ := bind_eq_ok.1 hadvance
    obtain ⟨rfl, rfl⟩ := Prod.mk.inj (Except.ok.inj hret)
    exact h.quiet hr (entryAt_parse hparse) rfl
  case priming.nil =>
    obtain ⟨rfl, rfl⟩ := Prod.mk.inj (Except.ok.inj hadvance)
    exact h.knows hr
  case priming.cons =>
    obtain ⟨rfl, rfl⟩ := Prod.mk.inj (Except.ok.inj hadvance)
    exact h.quiet hr (entryAt_prime listing s.rest did) rfl
  case storing =>
    obtain ⟨rfl, rfl⟩ := Prod.mk.inj (Except.ok.inj hadvance)
    -- the new entry expires a lifetime after the listing *began*: it is the slack that pays for the
    -- time the answer took
    have hlate : s.clock ≤ started + slack := hnow ▸ hintime _ hr rfl
    have hstore := entryAt_store listing s.rest (started + chacheDuration, content)
    have hself : (listing.store s.rest (started + chacheDuration, content)).entryAt
        listing.query.cacheAndKey = some (started + chacheDuration, listing.answer content) :=
      (hstore _).trans (if_pos rfl)
    have hsound := hfront.stored rfl hlate hself fun key hkey ↦ (hstore key).trans (if_neg hkey)
    exact ⟨hsound.sub (call_set_subset hr _), h.answers⟩
  case returning =>
    obtain ⟨content, hback, hret⟩ := bind_eq_ok.1 hadvance
    obtain ⟨rfl, rfl⟩ := Prod.mk.inj (Except.ok.inj hret)
    obtain ⟨expiry, answer, hentry, asked, hmade, hyoung⟩ :=
      hfront.readBack List.mem_cons_self rfl
    -- the answer is read back from the cache, where another listing may have stored meanwhile
    have hcontent : listing.answer content = answer := by
      have hfind := (map_find_eq_entryAt listing s.rest).trans hentry
      obtain ⟨found, hfound, heq⟩ := Option.map_eq_some_iff.1 hfind
      rw [Listing.readBack, hfound] at hback
      rw [← Except.ok.inj hback]
      exact congrArg Prod.snd heq
    have hage : started - max chacheDuration slack ≤ asked :=
      Int.le_trans (Int.sub_le_sub_left (Int.le_max_right _ _) _) hyoung
    exact ⟨h.sound.sub hothers,
      List.forall_mem_cons.2 ⟨⟨asked, hcontent ▸ hmade, hage⟩, h.answers⟩⟩

/-- **Every step keeps the invariant.** -/
theorem Client.Fresh.step (h : s.Fresh slack) {a : ClientAction} (hintime : StoresInTime slack s a)
    (hstep : s.step a = some t) : t.Fresh slack := by
  rw [Client.step] at hstep
  split_ifs at hstep with hback
  have hticked := h.tick (Int.not_lt.1 hback)
  cases a with
  | begins io listing caller =>
    obtain rfl := Option.some.inj hstep
    exact hticked.begins listing caller rfl
  | continues k io => exact hticked.continues rfl hintime hstep
  | meanwhile io caller what =>
    obtain ⟨rest, hrun, rfl⟩ := map_toOption_eq_some hstep
    exact ⟨(entryAt_meanwhile hrun).symm ▸ hticked.sound, hticked.answers⟩

/-- **What a listing reads back is there.** -/
theorem Client.Fresh.exists_readBack (h : s.Fresh slack) {r : Lister} (hr : r ∈ s.listers)
    (haccess : r.access = .returning) : ∃ content, r.listing.readBack s.rest = .ok content := by
  have hcall : r.call.stage = .returning := by
    rw [Lister.call, haccess]
    rfl
  obtain ⟨expiry, answer, hentry, -⟩ := h.sound.readBack (List.mem_map_of_mem hr) hcall
  obtain ⟨found, hfound, -⟩ :=
    Option.map_eq_some_iff.1 ((map_find_eq_entryAt r.listing s.rest).trans hentry)
  refine ⟨found.2, ?_⟩
  rw [Listing.readBack, hfound]
  rfl

end Steps

/-! ### Every run -/

section Runs

variable {rest : State} {clock : ℤ} {slack : ℕ} {s : Client} {actions : List ClientAction}

theorem StoresInTime.mono {slack' : ℕ} (hle : slack ≤ slack') {a : ClientAction}
    (h : StoresInTime slack s a) : StoresInTime slack' s a := by
  cases a with
  | continues k io =>
    intro r hr hstage
    have hin : io.now ≤ r.started + slack := h r hr hstage
    omega
  | begins | meanwhile => trivial

/-- In every run the listings store in some time. -/
theorem exists_storesInTime (actions : List ClientAction) : ∀ s : Client,
    ∃ slack, StepsMeet Client.step (StoresInTime slack) s actions := by
  induction actions with
  | nil => exact fun s ↦ ⟨0, trivial⟩
  | cons a actions ih =>
    intro s
    have hfirst : ∃ slack, StoresInTime slack s a := by
      cases a with
      | continues k io =>
        rcases hr : s.listers[k]? with - | r
        · exact ⟨0, fun r hr' ↦ absurd (hr.symm.trans hr') (Option.some_ne_none r).symm⟩
        · refine ⟨(io.now - r.started).toNat, fun r' hr' _ ↦ ?_⟩
          obtain rfl := Option.some.inj (hr.symm.trans hr')
          omega
      | begins | meanwhile => exact ⟨0, trivial⟩
    obtain ⟨slack, hslack⟩ := hfirst
    rcases hstep : s.step a with - | t
    · exact ⟨0, fun t ht ↦ absurd (hstep.symm.trans ht) (Option.some_ne_none t).symm⟩
    · obtain ⟨slack', hrest⟩ := ih t
      refine ⟨max slack slack', fun t' ht' ↦ ?_⟩
      obtain rfl := Option.some.inj (hstep.symm.trans ht')
      refine ⟨hslack.mono (Nat.le_max_left _ _), ?_⟩
      exact stepsMeet_mono (fun _ _ h ↦ h.mono (Nat.le_max_right _ _)) hrest

/-- Before the first listing there is nothing to keep. -/
theorem fresh_start (slack : ℕ) (servers : ServerMap) (serverNames : List Str) (clock : ℤ) :
    Client.Fresh slack { rest := State.start servers serverNames, clock } where
  sound := Sound.start fun ⟨cache, key⟩ expiry answer hentry ↦ by
    cases cache <;> exact absurd hentry.symm (Option.some_ne_none _)
  answers _ hmem := absurd hmem List.not_mem_nil

/-- **Every run keeps the invariant** if its listings store in time. -/
theorem fresh_run {servers : ServerMap} {serverNames : List Str}
    (hintime : StepsMeet Client.step (StoresInTime slack)
      { rest := State.start servers serverNames, clock } actions)
    (hrun : exec Client.step { rest := State.start servers serverNames, clock } actions = some s) :
    s.Fresh slack := by
  refine @inv_of_stepsMeet _ _ Client.step (fun _ ↦ True) (Client.Fresh slack) _
    (fun s a t hs _ hmeets hstep ↦ ?_) actions _ s
    (fresh_start slack servers serverNames clock) (fun _ _ ↦ trivial) hintime hrun
  exact hs.step hmeets hstep

/-- **How old the answers of overlapping listings are.** However the accesses of listings to their
caches interleave with each other and with everything else the client does, an answer is what a
listing for the same key has made of the answer of its server, and that listing has started at most
so many seconds before the one that answers: `chacheDuration`, or, if that is longer, the time that
a listing may take from its look into the cache until it stores. And what a listing reads back is
always there. -/
theorem overlapping_listings_fresh {servers : ServerMap} {serverNames : List Str}
    (hrun : exec Client.step { rest := State.start servers serverNames, clock } actions = some s) :
    (∀ slack : ℕ, StepsMeet Client.step (StoresInTime slack)
        { rest := State.start servers serverNames, clock } actions →
      ∀ told ∈ s.answers, ∃ source ∈ s.made, source.key = told.key ∧
        source.listing = told.listing ∧ told.start - max chacheDuration slack ≤ source.start) ∧
    ∀ r ∈ s.listers, r.access = .returning →
      ∃ content, r.listing.readBack s.rest = .ok content := by
  constructor
  · intro slack hintime told htold
    obtain ⟨asked, hmade, hyoung⟩ := (fresh_run hintime hrun).answers told htold
    exact ⟨_, hmade, rfl, rfl, hyoung⟩
  · intro r hr haccess
    obtain ⟨slack, hintime⟩ := exists_storesInTime actions
      { rest := State.start servers serverNames, clock }
    exact (fresh_run hintime hrun).exists_readBack hr haccess

/-- One user lists the scopes of a server and is slow; 200 seconds later another one lists them,
and before that listing reads its own answer back, the slow one stores what it was told. -/
def overtaken : List ClientAction :=
  let early : Io := { sampleIo with net := fun _ _ ↦ ⟨0, [['[', 'x', ']']]⟩ }
  let late : Io := { sampleIo with
    now := sampleIo.now + 200
    net := fun _ _ ↦ ⟨0, [['[', 'y', ']']]⟩ }
  -- each of them asks, parses its only chunk, has no more to parse, and nothing to tell the lookups
  [.begins early (.scopes ['s']) { sampleCaller with uid := 7 }] ++
    List.replicate 4 (.continues 0 early) ++
    [.begins late (.scopes ['s']) { sampleCaller with uid := 8 }] ++
    List.replicate 4 (.continues 1 late) ++
    -- the late one stores, the slow one stores, and the late one reads back
    [.continues 1 late, .continues 0 late, .continues 1 late]

/-- The late listing answers with what the server has told the slow one. -/
theorem overlapping_listings_fresh_overtaken : ∃ s : Client,
    exec Client.step { rest := State.start twoHolders [['s']], clock := 0 } overtaken = some s ∧
      (s.answers.map fun told ↦ (told.start, told.listing)) =
        [(sampleIo.now + 200, .scopes [['x']])] ∧
      ∀ told ∈ s.answers, ∃ source ∈ s.made, source.key = told.key ∧
        source.listing = told.listing ∧ told.start - 200 ≤ source.start := by
  have hends : (exec Client.step { rest := State.start twoHolders [['s']], clock := 0 }
      overtaken).map (fun s ↦ s.answers.map fun told ↦ (told.start, told.listing)) =
        some [(sampleIo.now + 200, .scopes [['x']])] := by decide +kernel
  obtain ⟨s, hrun, hanswers⟩ := Option.map_eq_some_iff.1 hends
  exact ⟨s, hrun, hanswers, (overlapping_listings_fresh hrun).1 200 (by decide +kernel)⟩

end Runs

end FusePosix
