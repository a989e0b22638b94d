import FusePosix.Rest.Auth

/-!
# Listings and lookups

The functions the callbacks ask about the content of a server. Each of them first looks into a cache
that all users share, and sends a request if there is no entry. Listings (`rucioListScopes`,
`rucioListDids`, `rucioListContainerDids`) expire after `chacheDuration` seconds. The answers about
a single DID (`rucioIsContainer`, `rucioIsFile`, `rucioGetSize`) stay for ever; the two DID listings
fill them in for every DID they meet.

A cache key is the concatenation of the names it is about. The two exceptions are the entries
`rucioIsContainer` and `rucioIsFile` make for their own answers: these are stored under the path,
although they are looked for under the names.

Access to an empty payload by `front()` is undefined.
-/

namespace FusePosix

/-! ### Shared parts -/

/-- How long a listing may be used, in seconds. -/
def chacheDuration : ℤ := 120

/-- The key of an entity: its names, one behind the other. -/
def cacheKey (entity : Entity) : Str := entity.flatten

/-- What is read from an entry: memory that was never written holds anything. -/
def Io.readBool (io : Io) (value : Option Bool) : Bool := value.getD (io.garbage ≠ 0)

/-- What is read from an entry: memory that was never written holds anything. -/
def Io.readInt (io : Io) (value : Option ℤ) : ℤ := value.getD io.garbage

/-- A data request below the address of a server. -/
def dataRequest (connParams : ConnectionParameters) (resource : Str) (headers : List Str) :
    Request where
  url := connParams.serverUrl ++ resource
  caPath := connParams.caPath
  headers := headers
  timeout := defaultTimeout

/-! ### Scopes -/

/-- Split the text of a Python list and add its elements to `target`, without quotes, blanks and
brackets. -/
def tokenizePythonList (list : Str) (target : List Str) : Except Fault (List Str) :=
  let listCopy := Text.eraseAt 0 1 list
  -- `erase(size() - 1)` of an empty text is out of range
  if listCopy.length = 0 then .error .outOfRange
  else
    let listCopy := listCopy.dropLast
    .ok (target ++ (Text.getlines ',' (cStr listCopy)).map fun element ↦
      element.filter fun c ↦ !(c == '"' || c == ' ' || c == ']'))

/-- Split the chunks of a response. -/
def tokenizeAll : List Str → List Str → Except Fault (List Str)
  | [], scopes => return scopes
  | line :: payload, scopes => do
    tokenizeAll payload (← tokenizePythonList line scopes)

/-- Store a list of scopes. -/
def State.setScopes (s : State) (shortServerName : Str) (entry : ℤ × List Str) : State :=
  { s with scopesCache := s.scopesCache.insert shortServerName entry }.note
    (.stored .scopes [shortServerName] shortServerName)

/-- What `rucio_list_scopes` does once the cache has no entry it may use. -/
def fetchScopes (io : Io) (shortServerName : Str) (caller : Caller) (s : State) :
    Except Fault (List Str × State) := do
  -- the steps of `get_auth_headers`, which the source writes out here
  let (headers, s) ← getAuthHeaders io shortServerName caller s
  match headers, getServerParams s.servers shortServerName with
  | some headers, some connParams =>
    let (curlRes, s) := safeGET io (dataRequest connParams "/scopes/".toList headers) s
    if !curlRes.ok then return ([], s)
    else
      let scopes ← tokenizeAll curlRes.payload []
      return (scopes, s.setScopes shortServerName (io.now + chacheDuration, scopes))
  | _, _ => return ([], s)

/-- `rucio_list_scopes`. -/
def rucioListScopes (io : Io) (shortServerName : Str) (caller : Caller) (s : State) :
    Except Fault (List Str × State) :=
  match s.scopesCache.find shortServerName with
  | none => fetchScopes io shortServerName caller s
  | some found =>
    if found.1 < io.now then fetchScopes io shortServerName caller s
    else return (found.2, s.note (.used .scopes [shortServerName] shortServerName))

/-- `rucio_list_servers`. -/
def rucioListServers (s : State) : List Str := s.serverNames

/-! ### DIDs -/

/-- Note what a listing says about one of its DIDs, below the same server and scope. -/
def State.primeLookup (s : State) (shortServerName scope : Str) (did : RucioDid) : State :=
  let entity := [shortServerName, scope, did.name]
  let key := cacheKey entity
  let isContainer := did.type.map fun type ↦ decide (type ≠ .rucioFile)
  let s := { s with isContainerCache := s.isContainerCache.insert key isContainer }.note
    (.stored .isContainer entity key)
  { s with fileSizeCache := s.fileSizeCache.insert key did.size }.note
    (.stored .fileSize entity key)

/-- The loop over the DIDs of a listing. -/
def State.primeLookups (s : State) (shortServerName scope : Str) (dids : List RucioDid) : State :=
  dids.foldl (fun s did ↦ s.primeLookup shortServerName scope did) s

/-- Parse the chunks of a response, with the remainder of the state. -/
def parseDids
    (structurize : Str → Str → List RucioDid → Except Fault (Str × List RucioDid))
    (payload : List Str) (s : State) : Except Fault (List RucioDid × State) := do
  let parsed ← structurizeAll structurize s.didStringRemainder payload []
  return (parsed.2, { s with didStringRemainder := parsed.1 })

/-- Store a scope listing. -/
def State.setDids (s : State) (entity : Entity) (entry : ℤ × List RucioDid) : State :=
  { s with didsCache := s.didsCache.insert (cacheKey entity) entry }.note
    (.stored .dids entity (cacheKey entity))

/-- Store a container listing. -/
def State.setContainerDids (s : State) (entity : Entity) (entry : ℤ × List RucioDid) : State :=
  { s with containerDidsCache := s.containerDidsCache.insert (cacheKey entity) entry }.note
    (.stored .containerDids entity (cacheKey entity))

/-- What both DID listings do once the cache has no entry they may use: fetch, parse, note what the
listing says about its DIDs, and store it. -/
def fetchDids (io : Io) (shortServerName scope resource : Str) (caller : Caller)
    (structurize : Str → Str → List RucioDid → Except Fault (Str × List RucioDid))
    (store : State → ℤ × List RucioDid → State) (s : State) :
    Except Fault (List RucioDid × State) := do
  let connParams := getServerParams s.servers shortServerName
  let (headers, s) ← getAuthHeaders io shortServerName caller s
  match headers with
  | none => return ([], s)
  | some headers =>
    let connParams ← deref connParams
    let (curlRes, s) := safeGET io (dataRequest connParams resource headers) s
    if !curlRes.ok then return ([], s)
    else
      let (dids, s) ← parseDids structurize curlRes.payload s
      let s := s.primeLookups shortServerName scope dids
      return (dids, store s (io.now + chacheDuration, dids))

/-- `rucio_list_dids`. -/
def rucioListDids (io : Io) (scope shortServerName : Str) (caller : Caller) (s : State) :
    Except Fault (List RucioDid × State) :=
  let entity := [shortServerName, scope]
  let fetch := fetchDids io shortServerName scope ("/dids/".toList ++ scope ++ ['/']) caller
    structurizeDid (fun s entry ↦ s.setDids entity entry) s
  match s.didsCache.find (cacheKey entity) with
  | none => fetch
  | some found =>
    if found.1 < io.now then fetch
    else return (found.2, s.note (.used .dids entity (cacheKey entity)))

/-- `rucio_list_container_dids`. -/
def rucioListContainerDids (io : Io) (scope containerName shortServerName : Str) (caller : Caller)
    (s : State) : Except Fault (List RucioDid × State) :=
  let entity := [shortServerName, scope, containerName]
  let fetch := fetchDids io shortServerName scope
    ("/dids/".toList ++ scope ++ ['/'] ++ containerName ++ "/dids".toList) caller
    structurizeContainerDid (fun s entry ↦ s.setContainerDids entity entry) s
  match s.containerDidsCache.find (cacheKey entity) with
  | none => fetch
  | some found =>
    if found.1 < io.now then fetch
    else return (found.2, s.note (.used .containerDids entity (cacheKey entity)))

/-! ### Where a listing comes from -/

section Listings

variable {io : Io} {server scope : Str} {caller : Caller} {s t : State}

/-- A listing is fetched unless its entry is there and has not expired. -/
theorem fetched_or_used {α : Type} {found : Option (ℤ × α)} {now : ℤ}
    {fetch : Except Fault (α × State)} {used : State} {a : α}
    (hnone : found = none → fetch = .ok (a, t))
    (hsome : ∀ entry, found = some entry →
      (if entry.1 < now then fetch else .ok (entry.2, used)) = .ok (a, t)) :
    (fetch = .ok (a, t) ∧ ∀ entry, found = some entry → entry.1 < now) ∨
      ∃ expiry, found = some (expiry, a) ∧ now ≤ expiry ∧ t = used := by
  rcases found with - | ⟨expiry, value⟩
  · exact Or.inl ⟨hnone rfl, fun entry hentry ↦ by cases hentry⟩
  · have hentry := hsome (expiry, value) rfl
    simp only at hentry
    split_ifs at hentry with hexpired
    · exact Or.inl ⟨hentry, fun entry hfound ↦ Option.some.inj hfound ▸ hexpired⟩
    · obtain ⟨rfl, rfl⟩ := Prod.mk.inj (Except.ok.inj hentry)
      exact Or.inr ⟨expiry, rfl, Int.not_lt.1 hexpired, rfl⟩

theorem rucioListScopes_eq_ok {scopes : List Str}
    (h : rucioListScopes io server caller s = .ok (scopes, t)) :
    (fetchScopes io server caller s = .ok (scopes, t) ∧
        ∀ entry, s.scopesCache.find server = some entry → entry.1 < io.now) ∨
      ∃ expiry, s.scopesCache.find server = some (expiry, scopes) ∧ io.now ≤ expiry ∧
        t = s.note (.used .scopes [server] server) := by
  refine fetched_or_used (fun hnone ↦ ?_) fun entry hsome ↦ ?_
  · rwa [rucioListScopes, hnone] at h
  · rwa [rucioListScopes, hsome] at h

theorem rucioListDids_eq_ok {dids : List RucioDid}
    (h : rucioListDids io scope server caller s = .ok (dids, t)) :
    (fetchDids io server scope ("/dids/".toList ++ scope ++ ['/']) caller structurizeDid
          (fun s entry ↦ s.setDids [server, scope] entry) s = .ok (dids, t) ∧
        ∀ entry, s.didsCache.find (cacheKey [server, scope]) = some entry → entry.1 < io.now) ∨
      ∃ expiry, s.didsCache.find (cacheKey [server, scope]) = some (expiry, dids) ∧
        io.now ≤ expiry ∧ t = s.note (.used .dids [server, scope] (cacheKey [server, scope])) := by
  refine fetched_or_used (fun hnone ↦ ?_) fun entry hsome ↦ ?_
  · rwa [rucioListDids, hnone] at h
  · rwa [rucioListDids, hsome] at h

theorem rucioListContainerDids_eq_ok {name : Str} {dids : List RucioDid}
    (h : rucioListContainerDids io scope name server caller s = .ok (dids, t)) :
    (fetchDids io server scope ("/dids/".toList ++ scope ++ ['/'] ++ name ++ "/dids".toList) caller
          structurizeContainerDid (fun s entry ↦ s.setContainerDids [server, scope, name] entry) s =
            .ok (dids, t) ∧
        ∀ entry, s.containerDidsCache.find (cacheKey [server, scope, name]) = some entry →
          entry.1 < io.now) ∨
      ∃ expiry, s.containerDidsCache.find (cacheKey [server, scope, name]) = some (expiry, dids) ∧
        io.now ≤ expiry ∧
        t = s.note
          (.used .containerDids [server, scope, name] (cacheKey [server, scope, name])) := by
  refine fetched_or_used (fun hnone ↦ ?_) fun entry hsome ↦ ?_
  · rwa [rucioListContainerDids, hnone] at h
  · rwa [rucioListContainerDids, hsome] at h

end Listings

/-! ### Single DIDs -/

/-- The request for the record of one DID, and the answer, if the server is loaded and the exchange
succeeds. -/
def fetchDid (io : Io) (shortServerName scope name : Str) (caller : Caller) (s : State) :
    Except Fault (Option (List Str) × State) := do
  let connParams := getServerParams s.servers shortServerName
  let (headers, s) ← getAuthHeaders io shortServerName caller s
  match headers with
  | none => return (none, s)
  | some headers =>
    let connParams ← deref connParams
    let resource := "/dids/".toList ++ scope ++ ['/'] ++ name
    let (curlRes, s) := safeGET io (dataRequest connParams resource headers) s
    return (if curlRes.ok then some curlRes.payload else none, s)

/-- Store the kind of the DID at a path, under the path. -/
def State.setIsContainer (s : State) (entity : Entity) (path : Str) (value : Bool) : State :=
  { s with isContainerCache := s.isContainerCache.insert path (some value) }.note
    (.stored .isContainer entity path)

/-- `rucio_is_container` of a path. -/
def rucioIsContainer (io : Io) (path : Str) (caller : Caller) (s : State) :
    Except Fault (Bool × State) := do
  let shortServerName := extractServerName path
  let scope ← extractScope path
  let name ← extractName path
  let entity := [shortServerName, scope, name]
  match s.isContainerCache.find (cacheKey entity) with
  | some found => return (io.readBool found, s.note (.used .isContainer entity (cacheKey entity)))
  | none =>
    let (payload, s) ← fetchDid io shortServerName scope name caller s
    match payload with
    | none => return (false, s)
    | some payload =>
      let front ← deref payload.head?
      let value := (Text.find "\"CONTAINER\",".toList front).isSome ||
        (Text.find "\"DATASET\",".toList front).isSome
      return (value, s.setIsContainer entity path value)

/-- Store whether the DID at a path is a file, under the path. -/
def State.setIsFile (s : State) (entity : Entity) (path : Str) (value : Bool) : State :=
  { s with isFileCache := s.isFileCache.insert path value }.note (.stored .isFile entity path)

/-- `rucio_is_file` of a path. -/
def rucioIsFile (io : Io) (path : Str) (caller : Caller) (s : State) :
    Except Fault (Bool × State) := do
  let shortServerName := extractServerName path
  let scope ← extractScope path
  let name ← extractName path
  let entity := [shortServerName, scope, name]
  match s.isFileCache.find (cacheKey entity) with
  | some found => return (found, s.note (.used .isFile entity (cacheKey entity)))
  | none =>
    let (payload, s) ← fetchDid io shortServerName scope name caller s
    match payload with
    | none => return (false, s)
    | some payload =>
      let front ← deref payload.head?
      let value := (Text.find "\"FILE\",".toList front).isSome
      return (value, s.setIsFile entity path value)

/-! ### Sizes -/

/-- The text in front of a number in the record of a DID, `rucio_bytes_metadata`. -/
def rucioBytesMetadata : Str := "\"bytes\": ".toList

/-- `std::stoll` inside of a handler that catches everything, cut down to an `int`. A text without
digits and a number that does not fit leave 0. -/
def sizeOfText (s : Str) : ℤ :=
  let s := s.dropWhile isSpaceChar
  let (negative, s) := match s with
    | '-' :: s => (true, s)
    | '+' :: s => (false, s)
    | s => (false, s)
  let digits := s.takeWhile Char.isDigit
  let n : ℤ := if negative then -digitsValue digits else digitsValue digits
  if digits = [] ∨ n < -2 ^ 63 ∨ 2 ^ 63 ≤ n then 0 else n.bmod (2 ^ 32)

/-- The size in the first chunk that has one. The text of the number ends at the next comma, or
with the chunk. -/
def sizeOfPayload : List Str → Option ℤ
  | [] => none
  | payload :: rest =>
    match Text.find rucioBytesMetadata payload with
    | none => sizeOfPayload rest
    | some pos =>
      let number := payload.drop (pos + rucioBytesMetadata.length)
      -- the search for the comma starts at the blank in front of the number
      match (payload.drop (pos + rucioBytesMetadata.length - 1)).idxOf? ',' with
      | some length => some (sizeOfText (number.take (length - 1)))
      | none => some (sizeOfText number)

/-- Store a size, unless there is one. -/
def State.emplaceSize (s : State) (entity : Entity) (size : ℤ) : State :=
  { s with fileSizeCache := s.fileSizeCache.emplace (cacheKey entity) (some size) }.note
    (.stored .fileSize entity (cacheKey entity))

/-- `rucio_get_size`. -/
def rucioGetSize (io : Io) (path : Str) (caller : Caller) (s : State) :
    Except Fault (ℤ × State) := do
  let shortServerName := extractServerName path
  let scope ← extractScope path
  let name ← extractName path
  let entity := [shortServerName, scope, name]
  match s.fileSizeCache.find (cacheKey entity) with
  | some found => return (io.readInt found, s.note (.used .fileSize entity (cacheKey entity)))
  | none =>
    let (payload, s) ← fetchDid io shortServerName scope name caller s
    match payload with
    | none => return (0, s)
    | some payload =>
      match sizeOfPayload payload with
      | none => return (-1, s)
      | some size => return (size, s.emplaceSize entity size)

end FusePosix
