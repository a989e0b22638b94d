import FusePosix.Rest.Exchange

/-!
# What a failed exchange leaves behind

An exchange can fail in two ways. libcurl may report an error; the functions of the REST client look
at that, and go back without storing anything. Or the server answers with an exception, as a JSON
object with two fields. libcurl reports success for that, and the client does not look at the status
of the response, so it parses the exception like any other answer and stores what comes out.

`failed_exchange_keeps_caches_iff` says for each of the six functions when the caches survive an
answer. For a listing the answer is never looked at, so its entry is always replaced.
-/

namespace FusePosix

/-! ### Failed exchanges -/

/-- Whether a text may stand between the quotes of a JSON string. -/
def isJsonString : Str → Bool
  | [] => true
  | '\\' :: _ :: text => isJsonString text
  | c :: text => ' ' ≤ c && c ≠ '"' && c ≠ '\\' && isJsonString text

/-- The text of an exception. -/
def exceptionBody (name message : Str) : Str :=
  "\x7b\"ExceptionClass\": \"".toList ++ name ++ "\", \"ExceptionMessage\": \"".toList ++ message ++
    "\"\x7d".toList

/-- The body of a response is an exception. -/
def IsException (chunks : List Str) : Prop :=
  ∃ name message : Str, isJsonString name = true ∧ isJsonString message = true ∧
    chunks.flatten = exceptionBody name message

/-- An exchange fails with an error of libcurl or with an exception. -/
def CurlRet.Fails (ret : CurlRet) : Prop := ret.ok = false ∨ IsException ret.payload

/-- The six caches are the same. -/
structure SameCaches (s t : State) : Prop where
  scopes : t.scopesCache = s.scopesCache
  dids : t.didsCache = s.didsCache
  containerDids : t.containerDidsCache = s.containerDidsCache
  isContainer : t.isContainerCache = s.isContainerCache
  isFile : t.isFileCache = s.isFileCache
  fileSize : t.fileSizeCache = s.fileSizeCache

/-- The calls that write into caches. -/
inductive CacheCall where
  | asks (query : Query)
  | isFile (path : Str)
  deriving DecidableEq, Repr

/-- The state behind a call. -/
def CacheCall.run (io : Io) (caller : Caller) (s : State) : CacheCall → Except Fault State
  | .asks query => Prod.snd <$> RestCall.run ⟨io, caller, query⟩ s
  | .isFile path => Prod.snd <$> rucioIsFile io path caller s

/-- An answer that leaves nothing new behind: no chunk of it has a size, or what it says about the
kind of the DID stands under the path already. -/
def CacheCall.Unmoved (s : State) (chunks : List Str) : CacheCall → Prop
  | .asks (.scopes _) | .asks (.dids _ _) | .asks (.containerDids _ _ _) => False
  | .asks (.size _) => ∀ chunk ∈ chunks, Text.find rucioBytesMetadata chunk = none
  | .asks (.isContainer path) => ∃ front, chunks.head? = some front ∧
      s.isContainerCache.find path = some (some (saysContainer front))
  | .isFile path => ∃ front, chunks.head? = some front ∧
      s.isFileCache.find path = some (saysFile front)

section Caches

variable {io : Io} {server resource : Str} {caller : Caller} {s t : State} {ret : CurlRet}
  {payload : Option (List Str)}

theorem Quiet.sameCaches (h : Quiet s t) : SameCaches s t :=
  ⟨h.scopes, h.dids, h.containerDids, h.isContainer, h.isFile, h.fileSize⟩

/-- Quiet steps do not matter. -/
theorem Quiet.sameCaches_iff {s₁ : State} (h : Quiet s s₁) : SameCaches s t ↔ SameCaches s₁ t := by
  have hsame := h.sameCaches
  constructor
  · intro ht
    exact ⟨ht.scopes.trans hsame.scopes.symm, ht.dids.trans hsame.dids.symm,
      ht.containerDids.trans hsame.containerDids.symm, ht.isContainer.trans hsame.isContainer.symm,
      ht.isFile.trans hsame.isFile.symm, ht.fileSize.trans hsame.fileSize.symm⟩
  · intro ht
    exact ⟨ht.scopes.trans hsame.scopes, ht.dids.trans hsame.dids,
      ht.containerDids.trans hsame.containerDids, ht.isContainer.trans hsame.isContainer,
      ht.isFile.trans hsame.isFile, ht.fileSize.trans hsame.fileSize⟩

theorem SameCaches.expiring (h : SameCaches s t) : t.expiring = s.expiring :=
  expiring_eq_of_caches h.scopes h.dids h.containerDids

/-- A table is the same behind an insertion exactly if the entry was there. -/
theorem insert_eq_iff {ν : Type} {table : Table Str ν} {k : Str} {v : ν} :
    table.insert k v = table ↔ table.find k = some v := by
  refine ⟨fun h ↦ ?_, insert_eq_self⟩
  have hfind := Table.find_insert_self table k v
  rwa [h] at hfind

theorem sizeOfPayload_eq_none_iff {chunks : List Str} :
    sizeOfPayload chunks = none ↔ ∀ chunk ∈ chunks, Text.find rucioBytesMetadata chunk = none := by
  induction chunks with
  | nil => simp [sizeOfPayload]
  | cons chunk chunks ih =>
    rw [sizeOfPayload, List.forall_mem_cons]
    rcases hfind : Text.find rucioBytesMetadata chunk with - | pos
    · simpa using ih
    · simp only [reduceCtorEq, false_and, iff_false]
      split <;> simp

/-- The answer of an exchange that brought nothing. -/
theorem Exchanged.ok_eq_false (h : Exchanged io server resource caller s none t)
    (hret : lastAnswer io s t = some ret) : ret.ok = false := by
  have hpayload := h.payload_eq
  rw [hret, Option.bind_some] at hpayload
  split_ifs at hpayload with hok
  exact Bool.eq_false_iff.2 hok

/-- The answer of an exchange that brought something. -/
theorem Exchanged.ok_eq_true {chunks : List Str}
    (h : Exchanged io server resource caller s (some chunks) t)
    (hret : lastAnswer io s t = some ret) : ret.ok = true ∧ ret.payload = chunks := by
  have hpayload := h.payload_eq
  rw [hret, Option.bind_some] at hpayload
  split_ifs at hpayload with hok
  exact ⟨hok, (Option.some.inj hpayload).symm⟩

theorem stores_setIsContainer (entity : Entity) (path : Str) (value : Bool) :
    Stores s (s.setIsContainer entity path value) .isContainer entity path :=
  stores_isContainer path (some value)

theorem stores_setIsFile (entity : Entity) (path : Str) (value : Bool) :
    Stores s (s.setIsFile entity path value) .isFile entity path := by
  refine ⟨rfl, fun cache' key' hkey' ↦ ?_, rfl⟩
  cases cache' with
  | isFile => exact (contains_insert_imp hkey').imp id fun heq ↦ ⟨rfl, heq⟩
  | scopes | dids | containerDids | isContainer | fileSize => exact Or.inl hkey'

/-! ### What an answer leaves behind -/

/-- Nothing is left of an answer that libcurl reports as an error. -/
theorem Exchanged.sameCaches_iff {Q : Prop} (h : Exchanged io server resource caller s none t)
    (hret : lastAnswer io s t = some ret) : SameCaches s t ↔ ret.ok = false ∨ Q :=
  iff_of_true h.quiet.sameCaches (Or.inl (h.ok_eq_false hret))

/-- **A listing replaces its entry**, whatever the answer says. -/
theorem sameCaches_listing_iff {call : RestCall} {answer : Answer}
    (hlisting : call.query.IsListing) (h : call.run s = .ok (answer, t))
    (hret : lastAnswer call.io s t = some ret) : SameCaches s t ↔ ret.ok = false := by
  cases lists_of_run hlisting h with
  | used hentry hfresh =>
    rw [lastAnswer_note_used] at hret
    cases hret
  | nothing hstale hexchanged =>
    exact iff_of_true hexchanged.quiet.sameCaches (hexchanged.ok_eq_false hret)
  | fetched hstale hexchanged hparse hremainder hstored hanswer =>
    rw [hanswer] at hret
    obtain ⟨hok, -⟩ := hexchanged.ok_eq_true hret
    refine iff_of_false (fun hsame ↦ ?_) (by rw [hok]; exact Bool.noConfusion)
    -- the entry was stale, and the new one is not
    have hentry := hstored call.query
    rw [if_pos rfl, hsame.expiring] at hentry
    have hstale' : call.io.now + chacheDuration < call.io.now := hstale _ hentry
    have hlife : (0 : ℤ) ≤ chacheDuration := by decide
    omega

theorem sameCaches_setIsContainer_iff {entity : Entity} {path : Str} {value : Bool} :
    SameCaches s (s.setIsContainer entity path value) ↔
      s.isContainerCache.find path = some (some value) := by
  rw [← insert_eq_iff]
  exact ⟨fun h ↦ h.isContainer, fun h ↦ ⟨rfl, rfl, rfl, h, rfl, rfl⟩⟩

theorem sameCaches_setIsFile_iff {entity : Entity} {path : Str} {value : Bool} :
    SameCaches s (s.setIsFile entity path value) ↔ s.isFileCache.find path = some value := by
  rw [← insert_eq_iff]
  exact ⟨fun h ↦ h.isFile, fun h ↦ ⟨rfl, rfl, rfl, rfl, h, rfl⟩⟩

/-- **A lookup stores what its first chunk says**, which changes nothing exactly if it was there. -/
theorem sameCaches_lookup_iff {s₁ : State} {cache : CacheName} {entity : Entity} {key front : Str}
    {rest : List Str} {known : Str → Prop}
    (hexchanged : Exchanged io server resource caller s (some (front :: rest)) s₁)
    (hstores : Stores s₁ t cache entity key) (hret : lastAnswer io s t = some ret)
    (hknown : SameCaches s₁ t ↔ known front) :
    SameCaches s t ↔ ret.ok = false ∨ ∃ front, ret.payload.head? = some front ∧ known front := by
  rw [lastAnswer_of_stores hexchanged.quiet.log_suffix hstores] at hret
  obtain ⟨hok, hpayload⟩ := hexchanged.ok_eq_true hret
  rw [hexchanged.quiet.sameCaches_iff, hknown, hok, hpayload]
  simp

theorem sameCaches_isContainer_iff {path : Str} {value : Bool}
    (h : rucioIsContainer io path caller s = .ok (value, t))
    (hret : lastAnswer io s t = some ret) :
    SameCaches s t ↔ ret.ok = false ∨ ∃ front, ret.payload.head? = some front ∧
      s.isContainerCache.find path = some (some (saysContainer front)) := by
  obtain ⟨scope, name, -, ⟨found, -, -, rfl⟩ | ⟨-, payload, s₁, hexchanged, hend⟩⟩ :=
    rucioIsContainer_eq_ok h
  · rw [lastAnswer_note_used] at hret
    cases hret
  · rcases hend with ⟨rfl, rfl, rfl⟩ | ⟨front, rest, rfl, rfl, rfl⟩
    · exact hexchanged.sameCaches_iff hret
    · refine sameCaches_lookup_iff hexchanged (stores_setIsContainer _ path _) hret ?_
      rw [sameCaches_setIsContainer_iff, hexchanged.quiet.isContainer]

theorem sameCaches_isFile_iff {path : Str} {value : Bool}
    (h : rucioIsFile io path caller s = .ok (value, t)) (hret : lastAnswer io s t = some ret) :
    SameCaches s t ↔ ret.ok = false ∨ ∃ front, ret.payload.head? = some front ∧
      s.isFileCache.find path = some (saysFile front) := by
  obtain ⟨scope, name, -, ⟨-, rfl⟩ | ⟨-, payload, s₁, hexchanged, hend⟩⟩ := rucioIsFile_eq_ok h
  · rw [lastAnswer_note_used] at hret
    cases hret
  · rcases hend with ⟨rfl, rfl, rfl⟩ | ⟨front, rest, rfl, rfl, rfl⟩
    · exact hexchanged.sameCaches_iff hret
    · refine sameCaches_lookup_iff hexchanged (stores_setIsFile _ path _) hret ?_
      rw [sameCaches_setIsFile_iff, hexchanged.quiet.isFile]

theorem sameCaches_getSize_iff {path : Str} {size : ℤ}
    (h : rucioGetSize io path caller s = .ok (size, t)) (hret : lastAnswer io s t = some ret) :
    SameCaches s t ↔ ret.ok = false ∨
      ∀ chunk ∈ ret.payload, Text.find rucioBytesMetadata chunk = none := by
  obtain ⟨scope, name, -, ⟨found, -, -, rfl⟩ | ⟨hnone, payload, s₁, hexchanged, hend⟩⟩ :=
    rucioGetSize_eq_ok h
  · rw [lastAnswer_note_used] at hret
    cases hret
  rcases hend with ⟨rfl, rfl, rfl⟩ | ⟨chunks, rfl, hsize, rfl, rfl⟩ | ⟨chunks, rfl, hsize, rfl⟩
  · exact hexchanged.sameCaches_iff hret
  · obtain ⟨-, rfl⟩ := hexchanged.ok_eq_true hret
    exact iff_of_true hexchanged.quiet.sameCaches (Or.inr (sizeOfPayload_eq_none_iff.1 hsize))
  · rw [lastAnswer_of_stores hexchanged.quiet.log_suffix (stores_emplaceSize _)] at hret
    obtain ⟨hok, rfl⟩ := hexchanged.ok_eq_true hret
    refine iff_of_false (fun hsame ↦ ?_) ?_
    · -- the size is stored under the key that had none
      have hstored :
          (s₁.emplaceSize [extractServerName path, scope, name] size).fileSizeCache.contains
            (cacheKey [extractServerName path, scope, name]) = true := by
        show (s₁.fileSizeCache.emplace _ _).contains _ = true
        rw [Table.contains_emplace, decide_eq_true rfl, Bool.true_or]
      rw [hsame.fileSize, Table.contains, hnone] at hstored
      cases hstored
    · rw [hok, ← sizeOfPayload_eq_none_iff, hsize]
      simp

/-- **What survives an answer.** The caches are the same behind a call whose exchange has been
answered exactly if libcurl has reported an error or the answer leaves nothing new behind. -/
theorem CacheCall.sameCaches_iff {call : CacheCall} (h : call.run io caller s = .ok t)
    (hret : lastAnswer io s t = some ret) :
    SameCaches s t ↔ ret.ok = false ∨ call.Unmoved s ret.payload := by
  rcases call with query | path
  · obtain ⟨⟨answer, u⟩, hrun, rfl⟩ := map_eq_ok h
    cases RestCall.runs_of_eq_ok hrun with
    | scopes | dids | containerDids =>
      refine (sameCaches_listing_iff ?_ hrun hret).trans (or_iff_left id).symm
      exact trivial
    | isContainer hcall => exact sameCaches_isContainer_iff hcall hret
    | size hcall => exact sameCaches_getSize_iff hcall hret
  · obtain ⟨⟨value, u⟩, hrun, rfl⟩ := map_eq_ok h
    exact sameCaches_isFile_iff hrun hret

/-- **When failed exchanges leave the caches as they were.** They do exactly if an exception that
libcurl has delivered without an error leaves nothing new behind. So an error of libcurl never does
harm; an exception changes the caches behind every listing, behind a lookup of the kind unless what
it says is stored under the path already, and behind a lookup of the size if it has one. -/
theorem failed_exchange_keeps_caches_iff {call : CacheCall} (h : call.run io caller s = .ok t)
    (hret : lastAnswer io s t = some ret) :
    (ret.Fails → SameCaches s t) ↔
      (IsException ret.payload → ret.ok = false ∨ call.Unmoved s ret.payload) := by
  rw [call.sameCaches_iff h hret]
  refine ⟨fun hkeeps hexception ↦ hkeeps (Or.inr hexception), ?_⟩
  rintro hunmoved (hfailed | hexception)
  · exact Or.inl hfailed
  · exact hunmoved hexception

end Caches

/-- A world in which every request is answered alike. -/
def answering (ret : CurlRet) : Io := { sampleIo with net := fun _ _ ↦ ret }

/-- A user lists a scope while the server cannot be reached. -/
theorem failed_exchange_keeps_caches_iff_unreachable :
    ∃ t ret, CacheCall.run (answering ⟨7, []⟩) sampleCaller (State.start twoHolders [['s']])
        (.asks (.dids ['s'] ['x'])) = .ok t ∧
      lastAnswer (answering ⟨7, []⟩) (State.start twoHolders [['s']]) t = some ret ∧
      (ret.Fails → SameCaches (State.start twoHolders [['s']]) t) := by
  have hrun : ((CacheCall.run (answering ⟨7, []⟩) sampleCaller (State.start twoHolders [['s']])
      (.asks (.dids ['s'] ['x']))).toOption.map fun t ↦
        lastAnswer (answering ⟨7, []⟩) (State.start twoHolders [['s']]) t) =
      some (some ⟨7, []⟩) := by decide +kernel
  obtain ⟨t, ht, hret⟩ := map_toOption_eq_some hrun
  exact ⟨t, _, ht, hret,
    (failed_exchange_keeps_caches_iff ht hret).2 fun _ ↦ Or.inl (by decide)⟩

/-- The exception of a server that does not know a scope. -/
def scopeNotFound : CurlRet :=
  ⟨0, [exceptionBody "ScopeNotFound".toList "Scope does not exist.".toList]⟩

/-- A user lists a scope that the server does not know. The exception is read as one DID without a
name, and that is the content of the scope for everybody during the next two minutes. -/
theorem exception_cached_as_listing :
    ∃ t ret, CacheCall.run (answering scopeNotFound) sampleCaller (State.start twoHolders [['s']])
        (.asks (.dids ['s'] ['x'])) = .ok t ∧
      lastAnswer (answering scopeNotFound) (State.start twoHolders [['s']]) t = some ret ∧
      ret.Fails ∧ ¬SameCaches (State.start twoHolders [['s']]) t ∧
      t.didsCache.find ['s', 'x'] = some (1000120, [⟨[], none, [], [], none, 0⟩]) := by
  have hrun : ((CacheCall.run (answering scopeNotFound) sampleCaller
      (State.start twoHolders [['s']]) (.asks (.dids ['s'] ['x']))).toOption.map fun t ↦
        (lastAnswer (answering scopeNotFound) (State.start twoHolders [['s']]) t,
          t.didsCache.find ['s', 'x'])) =
      some (some scopeNotFound, some (1000120, [⟨[], none, [], [], none, 0⟩])) := by decide +kernel
  obtain ⟨t, ht, hseen⟩ := map_toOption_eq_some hrun
  obtain ⟨hret, hfound⟩ := Prod.mk.inj hseen
  have hfails : scopeNotFound.Fails :=
    Or.inr ⟨_, _, by decide +kernel, by decide +kernel, List.append_nil _⟩
  refine ⟨t, _, ht, hret, hfails, fun hsame ↦ ?_, hfound⟩
  rw [hsame.dids] at hfound
  cases hfound

end FusePosix
