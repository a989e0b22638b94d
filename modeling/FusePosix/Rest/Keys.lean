import FusePosix.Lib.Ledger
import FusePosix.Rest.Exchange
import FusePosix.Utils.PathAlgebra
import Mathlib.Data.Set.Function

/-!
# When cache entries are confused

The caches of the REST client are keyed by the names of an entity put one behind the other. Nothing
separates the names, so the server `ab` with the scope `c` and the server `a` with the scope `bc`
have one key. `cache_entries_confused_iff` says that this is all that can go wrong: along a run of
calls, every entity meets its own entries only if and only if no two entities that have met a cache
have one concatenation. It also gives a condition on what is asked for and listed in the run.

The entries `rucioIsContainer` makes for its own answers are no exception, although they have keys
of another kind: a path starts with a slash and the concatenation of the names does not, so they are
never found.
-/

namespace FusePosix

open Transition Ledger

/-! ### The ledger of the caches -/

/-- What an event says about the entries of the caches. -/
def Event.touch : Event → Option (Touch Entity (CacheName × Str))
  | .sent _ => none
  | .stored cache entity key => some (.stored entity (cache, key))
  | .used cache entity key => some (.used entity (cache, key))

/-- The ledger of the caches. -/
def State.ledger (s : State) : List (Touch Entity (CacheName × Str)) :=
  s.log.filterMap Event.touch

/-- **Every entity meets its own cache entries only.** -/
def State.NeverConfused (s : State) : Prop := Sound s.ledger

/-- The entities that have met a cache under their concatenation. -/
def State.touched (s : State) (cache : CacheName) : Set Entity :=
  {entity | Touches s.ledger entity (cache, cacheKey entity)}

section Ledger

variable {s t : State}

theorem ledger_stores {cache : CacheName} {entity : Entity} {key : Str}
    (h : Stores s t cache entity key) : t.ledger = .stored entity (cache, key) :: s.ledger := by
  rw [State.ledger, h.log, List.filterMap_cons]
  rfl

theorem ledger_quiet (h : Quiet s t) : t.ledger = s.ledger := by
  obtain ⟨requests, hlog⟩ := h.log
  have hsent : (requests.map Event.sent).filterMap Event.touch = [] := by
    rw [List.filterMap_map]
    exact List.filterMap_eq_nil_iff.2 fun request _ ↦ rfl
  rw [State.ledger, hlog, List.filterMap_append, hsent, List.nil_append, State.ledger]

theorem hasKey_quiet (h : Quiet s t) : t.hasKey = s.hasKey := by
  funext cache
  cases cases_eq : cache with
  | scopes => rw [State.hasKey, State.hasKey, h.scopes]
  | dids => rw [State.hasKey, State.hasKey, h.dids]
  | containerDids => rw [State.hasKey, State.hasKey, h.containerDids]
  | isContainer => rw [State.hasKey, State.hasKey, h.isContainer]
  | isFile => rw [State.hasKey, State.hasKey, h.isFile]
  | fileSize => rw [State.hasKey, State.hasKey, h.fileSize]

end Ledger

/-! ### What the ledger records -/

/-- Every entry of a cache was stored, every use is of something stored, and every meeting of an
entity with a key is of a certain kind. -/
structure Recorded (K : CacheName → Entity → Str → Prop) (s : State) : Prop where
  stored : ∀ cache key, s.hasKey cache key = true →
    ∃ entity, Touch.stored entity (cache, key) ∈ s.ledger
  keyed : ∀ cache entity key, Touches s.ledger entity (cache, key) → K cache entity key
  served : Served s.ledger

section Recorded

variable {K : CacheName → Entity → Str → Prop} {s t : State} {cache : CacheName} {entity : Entity}
  {key : Str}

/-- **Using an entry is recorded.** -/
theorem recorded_used (h : Recorded K s) (hkey : s.hasKey cache key = true)
    (hK : K cache entity key) : Recorded K (s.note (.used cache entity key)) where
  stored cache' key' hkey' := by
    obtain ⟨entity', hstored⟩ := h.stored cache' key' hkey'
    exact ⟨entity', List.mem_cons_of_mem _ hstored⟩
  keyed cache' entity' key' htouches := by
    rcases touches_used_cons.1 htouches with ⟨rfl, heq⟩ | htouches
    · obtain ⟨rfl, rfl⟩ := Prod.mk.inj heq
      exact hK
    · exact h.keyed _ _ _ htouches
  served := ⟨h.stored cache key hkey, h.served⟩

/-- **Storing an entry is recorded.** -/
theorem recorded_stored (h : Recorded K s) (hstores : Stores s t cache entity key)
    (hK : K cache entity key) : Recorded K t where
  stored cache' key' hkey' := by
    rw [ledger_stores hstores]
    rcases hstores.hasKey cache' key' hkey' with hold | ⟨rfl, rfl⟩
    · obtain ⟨entity', hstored⟩ := h.stored cache' key' hold
      exact ⟨entity', List.mem_cons_of_mem _ hstored⟩
    · exact ⟨entity, List.mem_cons_self⟩
  keyed cache' entity' key' htouches := by
    rw [ledger_stores hstores] at htouches
    rcases touches_stored_cons.1 htouches with ⟨rfl, heq⟩ | htouches
    · obtain ⟨rfl, rfl⟩ := Prod.mk.inj heq
      exact hK
    · exact h.keyed _ _ _ htouches
  served := by rw [ledger_stores hstores]; exact h.served

/-- **The record is kept.** -/
theorem kept_recorded (K : CacheName → Entity → Str → Prop) : Kept K (Recorded K) where
  quiet hq h := by
    refine ⟨?_, ?_, ?_⟩
    · rw [hasKey_quiet hq, ledger_quiet hq]; exact h.stored
    · rw [ledger_quiet hq]; exact h.keyed
    · rw [ledger_quiet hq]; exact h.served
  remainder _ h := ⟨h.stored, h.keyed, h.served⟩
  used hkey hK h := recorded_used h hkey hK
  stores hstores hK h := recorded_stored h hstores hK

end Recorded

/-! ### Well-formed queries -/

/-- A name that can be a path component. -/
def Named (s : Str) : Prop := s ≠ [] ∧ '/' ∉ s

/-- The names of a query are non-empty and free of slashes. -/
def Query.WellFormed : Query → Prop
  | .scopes server => Named server
  | .dids server scope => Named server ∧ Named scope
  | .containerDids server scope name => Named server ∧ Named scope ∧ Named name
  | .isContainer path => ∃ c cs trailing, path = mkPath (c :: cs) trailing
  | .size path => ∃ c cs trailing, path = mkPath (c :: cs) trailing

/-- What a query is about is in the sets. -/
def Query.Within (T : CacheName → Set Entity) : Query → Prop
  | .scopes server => [server] ∈ T .scopes
  | .dids server scope => [server, scope] ∈ T .dids
  | .containerDids server scope name => [server, scope, name] ∈ T .containerDids
  | .isContainer path => ∀ entity, entityOfPath path = .ok entity → entity ∈ T .isContainer
  | .size path => ∀ entity, entityOfPath path = .ok entity → entity ∈ T .fileSize

/-- The DIDs a query lists are in the sets. -/
def Query.ListsWithin (T : CacheName → Set Entity) : Query → List RucioDid → Prop
  | .dids server scope => fun dids ↦ ∀ did ∈ dids,
      [server, scope, did.name] ∈ T .isContainer ∧ [server, scope, did.name] ∈ T .fileSize
  | .containerDids server scope _ => fun dids ↦ ∀ did ∈ dids,
      [server, scope, did.name] ∈ T .isContainer ∧ [server, scope, did.name] ∈ T .fileSize
  | _ => fun _ ↦ True

/-- A call asks about entities in the sets and lists such entities. -/
def StaysWithin (T : CacheName → Set Entity) (s : State) (call : RestCall) : Prop :=
  call.query.Within T ∧
    ∀ dids t, call.run s = .ok (.dids dids, t) → call.query.ListsWithin T dids

/-- The kinds of keys there are: the concatenation of the names of an entity in the sets, or the
path of an entity. -/
def Keyed (T : CacheName → Set Entity) (cache : CacheName) (entity : Entity) (key : Str) : Prop :=
  (key = cacheKey entity ∧ key.head? ≠ some '/' ∧ entity ∈ T cache) ∨
    (cache = .isContainer ∧ key.head? = some '/' ∧ entityOfPath key = .ok entity)

section Keyed

variable {T : CacheName → Set Entity} {s t : State}

/-- A concatenation that starts with a name does not start with a slash. -/
theorem head?_cacheKey_ne {server : Str} (h : Named server) (names : List Str) :
    (cacheKey (server :: names)).head? ≠ some '/' := by
  obtain ⟨c, rest, rfl⟩ := List.exists_cons_of_ne_nil h.1
  have hc : c ≠ '/' := fun heq ↦ h.2 (by simp [heq])
  simpa [cacheKey] using hc

theorem keyed_cacheKey {server : Str} (h : Named server) {names : List Str} {cache : CacheName}
    (hT : server :: names ∈ T cache) :
    Keyed T cache (server :: names) (cacheKey (server :: names)) :=
  Or.inl ⟨rfl, head?_cacheKey_ne h names, hT⟩

theorem listingKeys_of_listsWithin {server scope : Str} (h : Named server) {dids : List RucioDid}
    (hT : ∀ did ∈ dids, [server, scope, did.name] ∈ T .isContainer ∧
      [server, scope, did.name] ∈ T .fileSize) :
    ListingKeys (Keyed T) server scope dids :=
  fun did hdid ↦ ⟨keyed_cacheKey h (hT did hdid).1, keyed_cacheKey h (hT did hdid).2⟩

/-- The entity of a well-formed path starts with a name. -/
theorem named_of_entityOfPath {c : Component} {cs : List Component} {trailing : Bool}
    {entity : Entity} (h : entityOfPath (mkPath (c :: cs) trailing) = .ok entity) :
    ∃ server names, Named server ∧ entity = server :: names := by
  obtain ⟨scope, -, h⟩ := bind_eq_ok.1 h
  obtain ⟨name, -, h⟩ := bind_eq_ok.1 h
  obtain rfl := Except.ok.inj h
  refine ⟨_, _, ?_, rfl⟩
  rw [extractServerName_mkPath]
  exact ⟨c.ne_nil, c.slash_notMem⟩

/-- **A call of well-formed names keeps the record.** -/
theorem recorded_run {call : RestCall} {answer : Answer} (hwf : call.query.WellFormed)
    (hT : StaysWithin T s call) (h : Recorded (Keyed T) s)
    (hrun : call.run s = .ok (answer, t)) : Recorded (Keyed T) t := by
  obtain ⟨io, caller, query⟩ := call
  obtain ⟨hwithin, hlists⟩ := hT
  cases RestCall.runs_of_eq_ok hrun with
  | @scopes server _ _ hcall =>
    have hkey : Keyed T .scopes [server] server := by
      have hkeyed := keyed_cacheKey hwf hwithin
      rwa [cacheKey, List.flatten_singleton] at hkeyed
    exact kept_rucioListScopes (kept_recorded _) hkey h hcall
  | dids hcall =>
    exact kept_rucioListDids (kept_recorded _) (keyed_cacheKey hwf.1 hwithin)
      (listingKeys_of_listsWithin hwf.1 (hlists _ _ hrun)) h hcall
  | containerDids hcall =>
    exact kept_rucioListContainerDids (kept_recorded _) (keyed_cacheKey hwf.1 hwithin)
      (listingKeys_of_listsWithin hwf.1 (hlists _ _ hrun)) h hcall
  | isContainer hcall =>
    obtain ⟨c, cs, trailing, rfl⟩ := hwf
    refine kept_rucioIsContainer (kept_recorded _) (fun entity hentity ↦ ⟨?_, ?_⟩) h hcall
    · have hmem := hwithin entity hentity
      obtain ⟨server, names, hserver, rfl⟩ := named_of_entityOfPath hentity
      exact keyed_cacheKey hserver hmem
    · exact Or.inr ⟨rfl, rfl, hentity⟩
  | size hcall =>
    obtain ⟨c, cs, trailing, rfl⟩ := hwf
    refine kept_rucioGetSize (kept_recorded _) (fun entity hentity ↦ ?_) h hcall
    have hmem := hwithin entity hentity
    obtain ⟨server, names, hserver, rfl⟩ := named_of_entityOfPath hentity
    exact keyed_cacheKey hserver hmem

/-- Keys that tell the entities of the sets apart tell all entities of the ledger apart. -/
theorem neverConfused_of_injOn (h : Recorded (Keyed T) s)
    (hinj : ∀ cache, Set.InjOn cacheKey (T cache)) : s.NeverConfused := by
  refine (sound_iff h.served).2 fun e e' k he he' ↦ ?_
  obtain ⟨cache, key⟩ := k
  rcases h.keyed cache e key he with ⟨heq, hhead, hmem⟩ | ⟨-, hhead, hpath⟩ <;>
    rcases h.keyed cache e' key he' with ⟨heq', hhead', hmem'⟩ | ⟨-, hhead', hpath'⟩
  · exact hinj cache hmem hmem' (heq.symm.trans heq')
  · exact absurd hhead' hhead
  · exact absurd hhead hhead'
  · exact Except.ok.inj (hpath.symm.trans hpath')

/-- What has met the caches is a set to stay within. -/
theorem recorded_touched (h : Recorded (Keyed T) s) : Recorded (Keyed s.touched) s where
  stored := h.stored
  keyed cache entity key htouches := by
    rcases h.keyed cache entity key htouches with ⟨rfl, hhead, -⟩ | hpath
    · exact Or.inl ⟨rfl, hhead, htouches⟩
    · exact Or.inr hpath
  served := h.served

theorem neverConfused_iff (h : Recorded (Keyed T) s) :
    s.NeverConfused ↔ ∀ cache, Set.InjOn cacheKey (s.touched cache) := by
  refine ⟨fun hsound cache e he e' he' heq ↦ ?_, neverConfused_of_injOn (recorded_touched h)⟩
  have htouches : Touches s.ledger e (cache, cacheKey e') := heq ▸ he
  exact (sound_iff h.served).1 hsound e e' _ htouches he'

theorem recorded_start (servers : ServerMap) (serverNames : List Str) :
    Recorded (Keyed T) (State.start servers serverNames) where
  stored cache key hkey := by cases cache <;> exact absurd hkey Bool.false_ne_true
  keyed cache entity key htouches := by simp [State.start, State.ledger, Touches] at htouches
  served := trivial

/-- What a run of well-formed calls records. -/
theorem recorded_exec {servers : ServerMap} {serverNames : List Str} {calls : List RestCall}
    (hwf : ∀ call ∈ calls, call.query.WellFormed)
    (hT : StepsMeet State.step (StaysWithin T) (State.start servers serverNames) calls)
    (h : exec State.step (State.start servers serverNames) calls = some s) :
    Recorded (Keyed T) s := by
  refine inv_of_stepsMeet (fun s call t hs hcall hstays hstep ↦ ?_)
    (recorded_start servers serverNames) hwf hT h
  obtain ⟨⟨answer, t'⟩, hrun, rfl⟩ := map_toOption_eq_some hstep
  exact recorded_run hcall hstays hs hrun

/-- Without sets to stay within there is nothing to check. -/
theorem stepsMeet_univ (calls : List RestCall) :
    ∀ s, StepsMeet State.step (StaysWithin fun _ ↦ Set.univ) s calls := by
  induction calls with
  | nil => exact fun _ ↦ trivial
  | cons call calls ih =>
    refine fun s t _ ↦ ⟨⟨?_, fun dids u _ ↦ ?_⟩, ih t⟩
    · cases call.query <;> simp [Query.Within]
    · cases call.query <;> simp [Query.ListsWithin]

end Keyed

/-! ### When entries are confused -/

/-- **When every entity meets its own cache entries only.** In the state behind a run of well-formed
calls that starts with empty caches, this is so if and only if concatenation tells the entities
apart that have met one cache. It is so, whatever the run, if all its calls ask about and list
entities that concatenation tells apart. -/
theorem cache_entries_confused_iff {servers : ServerMap} {serverNames : List Str}
    {calls : List RestCall} (hwf : ∀ call ∈ calls, call.query.WellFormed) {s : State}
    (h : exec State.step (State.start servers serverNames) calls = some s) :
    (s.NeverConfused ↔ ∀ cache, Set.InjOn cacheKey (s.touched cache)) ∧
      ∀ T : CacheName → Set Entity, (∀ cache, Set.InjOn cacheKey (T cache)) →
        StepsMeet State.step (StaysWithin T) (State.start servers serverNames) calls →
        s.NeverConfused := by
  refine ⟨neverConfused_iff (recorded_exec hwf (stepsMeet_univ calls _) h), fun T hinj hT ↦ ?_⟩
  exact neverConfused_of_injOn (recorded_exec hwf hT h) hinj

/-! ### Two servers with one key -/

/-- A server at an address, for which the user has a token. -/
def serverAt (url : Str) : RucioServer where
  rucioConnParams := ⟨url, [], [], [], .userpass, []⟩
  rucioTokenInfos := Table.empty.insert sampleCaller.uid ⟨['t'], {}, 2000000⟩
  configFilePath := []
  tempConfigFolder := []

/-- A registry with the servers `a` and `ab`. -/
def twoServers : ServerMap :=
  (Table.empty.insert ['a'] (serverAt ['h'])).insert ['a', 'b'] (serverAt ['g'])

/-- The record of a file. -/
def fileRecord (name : Str) : Str := ['{'] ++ "name:".toList ++ name ++ ",type:FILE".toList ++ ['}']

/-- A world in which `a` lists a file `x` and `ab` a file `y`. -/
def twoServersIo : Io :=
  { sampleIo with net := fun _ request ↦
      ⟨0, [fileRecord (if request.url.head? = some 'h' then ['x'] else ['y'])]⟩ }

/-- The user lists a scope of a server. -/
def listCall (server scope : Str) : RestCall := ⟨twoServersIo, sampleCaller, .dids server scope⟩

/-- The listing of one scope, fetched and then taken from the cache. -/
theorem cache_entries_confused_iff_one_scope :
    ∃ s, exec State.step (State.start twoServers [['a'], ['a', 'b']])
        [listCall ['a'] ['c'], listCall ['a'] ['c']] = some s ∧
      (s.NeverConfused ↔ ∀ cache, Set.InjOn cacheKey (s.touched cache)) ∧
      ∀ T : CacheName → Set Entity, (∀ cache, Set.InjOn cacheKey (T cache)) →
        StepsMeet State.step (StaysWithin T) (State.start twoServers [['a'], ['a', 'b']])
          [listCall ['a'] ['c'], listCall ['a'] ['c']] → s.NeverConfused := by
  have hwf : ∀ call ∈ [listCall ['a'] ['c'], listCall ['a'] ['c']], call.query.WellFormed := by
    intro call hcall
    obtain rfl : call = listCall ['a'] ['c'] := by simpa using hcall
    exact ⟨⟨by decide, by decide⟩, by decide, by decide⟩
  have hrun : (exec State.step (State.start twoServers [['a'], ['a', 'b']])
      [listCall ['a'] ['c'], listCall ['a'] ['c']]).isSome = true := by decide +kernel
  obtain ⟨s, hs⟩ := Option.isSome_iff_exists.1 hrun
  exact ⟨s, hs, cache_entries_confused_iff hwf hs⟩

/-- The user lists the scope `bc` of the server `a` and then the scope `c` of the server `ab`. The
second call uses the entry the first has stored, and returns its listing. -/
theorem two_servers_one_key :
    (∃ s, exec State.step (State.start twoServers [['a'], ['a', 'b']])
        [listCall ['a'] ['b', 'c'], listCall ['a', 'b'] ['c']] = some s ∧ ¬ s.NeverConfused) ∧
      ((State.step (State.start twoServers [['a'], ['a', 'b']]) (listCall ['a'] ['b', 'c'])).bind
          fun s ↦ ((listCall ['a', 'b'] ['c']).run s).toOption.map Prod.fst) =
        ((listCall ['a'] ['b', 'c']).run
          (State.start twoServers [['a'], ['a', 'b']])).toOption.map Prod.fst ∧
      ((listCall ['a', 'b'] ['c']).run
          (State.start twoServers [['a'], ['a', 'b']])).toOption.map Prod.fst ≠
        ((listCall ['a'] ['b', 'c']).run
          (State.start twoServers [['a'], ['a', 'b']])).toOption.map Prod.fst := by
  refine ⟨?_, by decide +kernel, by decide +kernel⟩
  have hrun : (exec State.step (State.start twoServers [['a'], ['a', 'b']])
      [listCall ['a'] ['b', 'c'], listCall ['a', 'b'] ['c']]).any (fun s ↦
        decide (Touch.used [['a', 'b'], ['c']] (.dids, ['a', 'b', 'c']) ∈ s.ledger ∧
          Touch.stored [['a'], ['b', 'c']] (.dids, ['a', 'b', 'c']) ∈ s.ledger)) = true := by
    decide +kernel
  obtain ⟨s, hs, hledger⟩ := (Option.any_eq_true _ _).1 hrun
  obtain ⟨hused, hstored⟩ := of_decide_eq_true hledger
  refine ⟨s, hs, fun hsound ↦ ?_⟩
  have hsame := eq_of_stored hsound (stored_of_touches hsound (Or.inr hused)) hstored
  exact absurd hsame (by decide)

end FusePosix
