import FusePosix.Fuse.Naming
import FusePosix.Fuse.Outage
import Mathlib.Data.List.TakeWhile

/-!
# Lookups and listings

Whether there is a file at a path can be asked in two ways: one may look the path up, or list the
directory and look for the name. The first goes through `rucioIsContainer` and `rucioGetSize`, which
ask for the DID itself, the second through the listing of the directory, and the two have different
caches. Nothing makes them agree. Below a scope `rucioGetattr` has no error to report: what is not
a container is a file. So every name is found in every directory, whether it is listed there or not.

`lookup_agrees_iff` is the exact condition under which a lookup agrees with the listing, in terms of
what the server has (`Content`) and of what the caches hold. A name that no server has ever heard of
violates it (`unknown_name_found`).
-/

namespace FusePosix

/-! ### What a server has -/

/-- What a server has. -/
structure Content where
  /-- Whether a name is attached to a scope, or to a container of it. -/
  attached : Str → Option Str → Str → Prop
  /-- The kind of a DID, if there is such a DID. -/
  kind : Str → Str → Option RucioDataType
  /-- The scopes that are read off their list. -/
  scopes : List Str
  /-- The DIDs the parser reads off the listing of a scope, or of a container of it. -/
  listed : Str → Option Str → List RucioDid
  /-- The first chunk of the record of a DID. -/
  record : Str → Str → Str

/-- What a listing of the server says. -/
def Content.answer (content : Content) : Query → Answer
  | .scopes _ => .scopes content.scopes
  | .dids _ scope => .dids (content.listed scope none)
  | .containerDids _ scope name => .dids (content.listed scope (some name))
  | .isContainer _ | .size _ => .dids []

/-- A world in which no request fails, and in which a server tells what it has. -/
structure Serves (io : Io) (params : ConnectionParameters) (remainder : Str) (content : Content) :
    Prop where
  ok : ∀ log request, (io.net log request).ok = true
  scopes : ∀ (log : List Event) (request : Request),
    request.url = cStr (params.serverUrl ++ "/scopes/".toList) →
      ∀ scopes, tokenizeAll (io.net log request).payload [] = .ok scopes → scopes = content.scopes
  listing : ∀ (c e : Component) (cs : List Component) (log : List Event) (request : Request),
    request.url = cStr (params.serverUrl ++ (listingOf c e cs).resource) →
      ∀ parsed, (listingOf c e cs).parseChunks remainder (io.net log request).payload = .ok parsed →
        parsed.2 = content.answer (listingOf c e cs)
  record : ∀ (e n : Component) (log : List Event) (request : Request),
    request.url = cStr (params.serverUrl ++ didResource e.text n.text) →
      ∀ front ∈ (io.net log request).payload.head?, front = content.record e.text n.text

/-! ### What is in use -/

/-- The listing a call gets: that of the entry as long as it may be used, else what the server
lists. -/
def State.inUse (s : State) (now : ℤ) (content : Content) (query : Query) : Answer :=
  match s.expiring query with
  | some (expiry, answer) => if now ≤ expiry then answer else content.answer query
  | none => content.answer query

/-- Whether a DID is taken for a container: by the cache, or else by its record. -/
def State.takenForContainer (io : Io) (s : State) (entity : Entity) (record : Str) : Bool :=
  match s.isContainerCache.find (cacheKey entity) with
  | some found => io.readBool found
  | none => saysContainer record

/-- The names of a listing. -/
def Answer.names : Answer → List Str
  | .scopes listed => listed
  | .dids listed => listed.map RucioDid.name
  | .isContainer _ | .size _ => []

/-- What a directory is listed by, at the depth it is taken to be at. The depth is a counter of 16
bits, so that a path with thousands of components may be taken for a server or for a scope. -/
def directoryQuery (depth : ℤ) (c e : Component) (cs : List Component) : Query :=
  if depth = 1 then .scopes c.text
  else if depth = 2 then .dids c.text e.text
  else .containerDids c.text e.text (cs.getLastD e).text

section Served

variable {io : Io} {params : ConnectionParameters} {content : Content} {caller : Caller}
  {s t : State} {c e n : Component} {cs : List Component} {remainder : Str} {depth : ℤ}

theorem Quiet.inUse (h : Quiet s t) (now : ℤ) (query : Query) :
    t.inUse now content query = s.inUse now content query := by
  rw [State.inUse, State.inUse, h.expiring]

theorem Quiet.takenForContainer (h : Quiet s t) (entity : Entity) (record : Str) :
    t.takenForContainer io entity record = s.takenForContainer io entity record := by
  rw [State.takenForContainer, State.takenForContainer, h.isContainer]

/-- An exchange with a server that is loaded and answers. -/
theorem Exchanged.served {server resource : Str} {payload : Option (List Str)}
    (h : Exchanged io server resource caller s payload t)
    (hok : ∀ log request, (io.net log request).ok = true)
    (hparams : getServerParams s.servers server = some params) :
    ∃ log request, request.url = cStr (params.serverUrl ++ resource) ∧
      payload = some (io.net log request).payload := by
  rcases h with hserver | ⟨-, hfailed⟩ | @⟨request, s₁, hasked, -⟩
  · exact absurd (hparams.symm.trans hserver) (by simp)
  · exact absurd (hfailed.symm.trans (hok _ _)) (by simp)
  · obtain ⟨fields, -, params', hparams', rfl⟩ := hasked.headers
    obtain rfl := Option.some.inj (hparams.symm.trans hparams')
    exact ⟨_, _, rfl, rfl⟩

/-- What a lookup keeps of the state. -/
theorem frame_rucioIsContainer {path : Str} {value : Bool}
    (h : rucioIsContainer io path caller s = .ok (value, t)) :
    SameSettings s.servers t.servers ∧ t.didStringRemainder = s.didStringRemainder := by
  obtain ⟨scope, name, -, ⟨found, -, -, rfl⟩ | ⟨-, payload, s₁, hexchanged, hend⟩⟩ :=
    rucioIsContainer_eq_ok h
  · exact ⟨sameSettings_refl _, rfl⟩
  · rcases hend with ⟨-, -, rfl⟩ | ⟨front, rest, -, -, rfl⟩
    · exact ⟨hexchanged.quiet.settings, hexchanged.quiet.remainder⟩
    · exact ⟨hexchanged.quiet.settings, hexchanged.quiet.remainder⟩

/-- The last component of a path below a scope, or the scope. -/
theorem getLast_eq_getLastD (c e : Component) (cs : List Component) :
    (c :: e :: cs).getLast (List.cons_ne_nil _ _) = cs.getLastD e := by
  rcases cs.eq_nil_or_concat with rfl | ⟨ds, d, rfl⟩
  · rfl
  · simp only [List.concat_eq_append, ← List.cons_append, List.getLast_concat,
      List.getLastD_concat]

/-- **Whether there is a container at a path** is what the cache says, or the record. -/
theorem isContainer_served (hserves : Serves io params remainder content)
    (hparams : getServerParams s.servers c.text = some params) {value : Bool}
    (h : rucioIsContainer io (mkPath (c :: e :: cs) false) caller s = .ok (value, t)) :
    value = s.takenForContainer io [c.text, e.text, (cs.getLastD e).text]
      (content.record e.text (cs.getLastD e).text) := by
  obtain ⟨scope, name, hentity, hrun⟩ := rucioIsContainer_eq_ok h
  have hentity' := entityOfPath_mkPath c e cs false
  rw [hentity', extractServerName_mkPath, getLast_eq_getLastD] at hentity
  obtain ⟨rfl, rfl⟩ : e.text = scope ∧ (cs.getLastD e).text = name := by simpa using hentity
  rw [extractServerName_mkPath] at hrun
  rw [State.takenForContainer]
  rcases hrun with ⟨found, hfound, hvalue, -⟩ | ⟨hnone, payload, s₁, hexchanged, hend⟩
  · rw [hfound, hvalue]
  · obtain ⟨log, request, hurl, rfl⟩ := hexchanged.served hserves.ok hparams
    rcases hend with ⟨hpayload, -⟩ | ⟨front, rest, hpayload, hvalue, -⟩
    · exact absurd hpayload (by simp)
    · have hfront : front ∈ (io.net log request).payload.head? := by
        rw [Option.some.inj hpayload]
        rfl
      obtain rfl := hserves.record e (cs.getLastD e) log request hurl front hfront
      rw [hnone, hvalue]

theorem directoryQuery_of_deep (hone : depth ≠ 1) (htwo : depth ≠ 2) :
    directoryQuery depth c e cs = .containerDids c.text e.text (cs.getLastD e).text := by
  rw [directoryQuery, if_neg hone, if_neg htwo]

theorem directoryQuery_frame (depth : ℤ) (c e : Component) (cs : List Component) :
    (directoryQuery depth c e cs).IsListing ∧ (directoryQuery depth c e cs).server = c.text := by
  rw [directoryQuery]
  split_ifs <;> exact ⟨trivial, rfl⟩

/-- The answer to a listing is read as what the server has. -/
theorem Serves.parse (hserves : Serves io params remainder content) {log : List Event}
    {request : Request} {parsed : Str × Answer}
    (hurl : request.url = cStr (params.serverUrl ++ (directoryQuery depth c e cs).resource))
    (h : (directoryQuery depth c e cs).parseChunks remainder (io.net log request).payload =
      .ok parsed) : parsed.2 = content.answer (directoryQuery depth c e cs) := by
  rw [directoryQuery] at hurl h ⊢
  split_ifs at hurl h ⊢ with hone htwo
  · obtain ⟨scopes, hscopes, hret⟩ := bind_eq_ok.1 h
    obtain rfl := Except.ok.inj hret
    exact congrArg Answer.scopes (hserves.scopes log request hurl scopes hscopes)
  · exact hserves.listing c e [] log request hurl parsed h
  · exact hserves.listing c e [cs.getLastD e] log request hurl parsed h

/-- **What a directory lists** is what the cache says, or the server. -/
theorem listing_served (hserves : Serves io params s.didStringRemainder content)
    (hparams : getServerParams s.servers c.text = some params) {answer : Answer}
    (h : RestCall.run ⟨io, caller, directoryQuery depth c e cs⟩ s = .ok (answer, t)) :
    answer = s.inUse io.now content (directoryQuery depth c e cs) := by
  obtain ⟨hlisting, hserver⟩ := directoryQuery_frame depth c e cs
  rw [← hserver] at hparams
  have hstale : (∀ entry, s.expiring (directoryQuery depth c e cs) = some entry →
      entry.1 < io.now) → s.inUse io.now content (directoryQuery depth c e cs) =
        content.answer (directoryQuery depth c e cs) := by
    intro hentry
    rw [State.inUse]
    rcases hfind : s.expiring (directoryQuery depth c e cs) with - | ⟨expiry, found⟩
    · rfl
    · exact if_neg (Int.not_le.2 (hentry _ hfind))
  rcases lists_of_run hlisting h with ⟨hentry, hfresh⟩ | ⟨hold, hexchanged⟩ |
    ⟨hold, hexchanged, hparse, -, -, -⟩
  · rw [State.inUse, hentry]
    exact (if_pos hfresh).symm
  · obtain ⟨log, request, -, hnone⟩ := hexchanged.served hserves.ok hparams
    exact absurd hnone (by simp)
  · obtain ⟨log, request, hurl, hsome⟩ := hexchanged.served hserves.ok hparams
    obtain rfl := Option.some.inj hsome
    rw [hexchanged.quiet.remainder] at hparse
    rw [hstale hold]
    exact hserves.parse hurl hparse

/-- **What a server lists at its mountpoint** is what the cache says, or the server. -/
theorem scopes_served (hserves : Serves io params s.didStringRemainder content)
    (hparams : getServerParams s.servers c.text = some params) {scopes : List Str}
    (h : rucioListScopes io c.text caller s = .ok (scopes, t)) :
    scopes = (s.inUse io.now content (.scopes c.text)).names := by
  have hrun : RestCall.run ⟨io, caller, directoryQuery 1 c c []⟩ s = .ok (.scopes scopes, t) :=
    run_scopes h
  rw [← show directoryQuery 1 c c [] = .scopes c.text from rfl,
    ← listing_served hserves hparams hrun]
  rfl

end Served

/-! ### Looking up and listing -/

/-- The path of an entry is a path. -/
theorem entryPath_mkPath (cs : List Component) (n : Component) :
    entryPath (mkPath cs false) n.text = mkPath (cs ++ [n]) false := by
  simp [entryPath, mkPath]

theorem admitted_congr {io : Io} {path path' : Str} {caller : Caller} {s : State}
    (hroot : isRootPath path = isRootPath path')
    (hserver : extractServerName path = extractServerName path') :
    Admitted io path caller s ↔ Admitted io path' caller s := by
  rw [Admitted, Admitted, hroot, hserver]

/-- Neither hidden nor one of the names a Mac asks for. -/
def Component.Plain (n : Component) : Prop :=
  n.text.head? ≠ some '.' ∧ n.text ≠ "HEAD".toList ∧ n.text ≠ "DCIM".toList

theorem isHidden_mkPath (cs : List Component) (n : Component) :
    isHidden (mkPath (cs ++ [n]) false) = .ok (n.text.head? == some '.') := by
  rw [isHidden, extractName_mkPath, ok_bind, pure_eq_ok]

theorem isMacSpecific_mkPath (cs : List Component) (n : Component) :
    isMacSpecific (mkPath (cs ++ [n]) false) =
      .ok (n.text == "HEAD".toList || n.text == "DCIM".toList) := by
  rw [isMacSpecific, extractName_mkPath, ok_bind, pure_eq_ok]

/-- A path is taken for something below a scope. -/
def TakenDeep (cs : List Component) : Prop :=
  ∀ depth, pathDepth (mkPath cs false) = .ok depth → depth ≠ 1 ∧ depth ≠ 2

/-- Something is found at a path: unless the path is taken for a scope, whatever the name is. -/
def Finds (io : Io) (s : State) (content : Content) (c e : Component) (cs : List Component) :
    Prop :=
  pathDepth (mkPath (c :: e :: cs) false) = .ok 2 →
    e.text ∈ (s.inUse io.now content (.scopes c.text)).names

/-- What is found at a path is taken for a file. -/
def TakenForFile (io : Io) (s : State) (content : Content) (c e : Component) (cs : List Component) :
    Prop :=
  TakenDeep (c :: e :: cs) ∧ s.takenForContainer io [c.text, e.text, (cs.getLastD e).text]
    (content.record e.text (cs.getLastD e).text) = false

/-- A directory shows a name. -/
structure Shows (io : Io) (s : State) (content : Content) (c e : Component) (cs : List Component)
    (n : Component) : Prop where
  /-- The directory itself is not hidden. -/
  visible : (cs.getLastD e).text.head? ≠ some '.'
  /-- Below a scope, the directory is taken for a container. -/
  directory : TakenDeep (c :: e :: cs) → s.takenForContainer io
    [c.text, e.text, (cs.getLastD e).text] (content.record e.text (cs.getLastD e).text) = true
  /-- The name is in the listing in use. -/
  listed : ∃ depth, pathDepth (mkPath (c :: e :: cs) false) = .ok depth ∧
    n.text ∈ (s.inUse io.now content (directoryQuery depth c e cs)).names

/-- **The condition for a lookup to agree with the listing.** -/
structure LookupAgrees (io : Io) (s : State) (content : Content) (c e : Component)
    (cs : List Component) (n : Component) : Prop where
  /-- The server attaches the name to the directory. -/
  attached : content.attached e.text (cs.getLast?.map Component.text) n.text
  /-- The directory shows the name. -/
  shown : Shows io s content c e cs n
  /-- What is taken for a file is one. -/
  file : TakenForFile io s content c e (cs ++ [n]) → content.kind e.text n.text = some .rucioFile

section Agreement

variable {io : Io} {params : ConnectionParameters} {content : Content} {caller : Caller}
  {st : Stat} {s t : State} {m m₁ m₂ : Mount} {c e n : Component} {cs : List Component}
  {found : ℤ × Stat} {listed : ℤ × List Str} {depth : ℤ}

theorem takenDeep_of_depth (hdepth : pathDepth (mkPath cs false) = .ok depth)
    (hone : depth ≠ 1) (htwo : depth ≠ 2) : TakenDeep cs := by
  intro other hother
  obtain rfl := Except.ok.inj (hother.symm.trans hdepth)
  exact ⟨hone, htwo⟩

theorem not_takenDeep_of_depth (hdepth : pathDepth (mkPath cs false) = .ok depth)
    (hshallow : depth = 1 ∨ depth = 2) : ¬TakenDeep cs := by
  intro hdeep
  obtain ⟨hone, htwo⟩ := hdeep depth hdepth
  exact hshallow.elim hone htwo

/-- **What a lookup finds** behind the gate. -/
theorem getattrEnds_served (hserves : Serves io params s.didStringRemainder content)
    (hparams : getServerParams s.servers c.text = some params)
    (h : GetattrEnds io (mkPath (c :: e :: cs) false) caller st s found t) :
    (found.1 = 0 ∧ Finds io s content c e cs ∨
      found.1 = -eNOENT ∧ ¬Finds io s content c e cs) ∧
    (found.1 = 0 → (found.2.mode = fileMode ↔ TakenForFile io s content c e cs)) := by
  have hroot' := isRootPath_mkPath (List.cons_ne_nil c (e :: cs)) false
  have hserver' := extractServerName_mkPath c (e :: cs) false
  have hscope' := extractScope_mkPath c e cs false
  have hmodes : directoryMode ≠ fileMode := by decide
  have hfinds : ∀ {depth : ℤ}, pathDepth (mkPath (c :: e :: cs) false) = .ok depth → depth ≠ 2 →
      Finds io s content c e cs := by
    intro depth hdepth htwo htwo'
    exact absurd (Except.ok.inj (hdepth.symm.trans htwo')) htwo
  -- One case for each return of `rucio_getattr`. `Finds` asks for something at depth two only, and
  -- there the scopes it was told are those of the server.
  induction h with
  | root hroot => exact absurd (hroot'.symm.trans hroot) Bool.false_ne_true
  | unknownServer _ _ hserver =>
    rw [hserver', serverExists, Table.contains] at hserver
    rw [getServerParams] at hparams
    rcases hfind : s.servers.find c.text with - | srv
    · rw [hfind] at hparams
      cases hparams
    · rw [hfind] at hserver
      cases hserver
  | server _ hdepth =>
    refine ⟨Or.inl ⟨rfl, hfinds hdepth (by decide)⟩, fun _ ↦ iff_of_false hmodes fun hfile ↦ ?_⟩
    exact not_takenDeep_of_depth hdepth (Or.inl rfl) hfile.1
  | unknownScope _ hdepth hscope hscopes hmem =>
    rw [hserver'] at hscopes
    obtain rfl := Except.ok.inj (hscope'.symm.trans hscope)
    rw [scopes_served hserves hparams hscopes] at hmem
    refine ⟨Or.inr ⟨rfl, fun hfinds ↦ hmem (hfinds hdepth)⟩, fun hzero ↦ ?_⟩
    exact absurd hzero (by show ¬(-eNOENT = 0); decide)
  | scope _ hdepth hscope hscopes hmem =>
    rw [hserver'] at hscopes
    obtain rfl := Except.ok.inj (hscope'.symm.trans hscope)
    rw [scopes_served hserves hparams hscopes] at hmem
    refine ⟨Or.inl ⟨rfl, fun _ ↦ hmem⟩, fun _ ↦ iff_of_false hmodes fun hfile ↦ ?_⟩
    exact not_takenDeep_of_depth hdepth (Or.inr rfl) hfile.1
  | container _ hdepth hone htwo hcontainer =>
    have htaken := isContainer_served hserves hparams hcontainer
    refine ⟨Or.inl ⟨rfl, hfinds hdepth htwo⟩, fun _ ↦ iff_of_false hmodes fun hfile ↦ ?_⟩
    exact Bool.false_ne_true (hfile.2.symm.trans htaken.symm)
  | file _ hdepth hone htwo hcontainer =>
    have htaken := isContainer_served hserves hparams hcontainer
    exact ⟨Or.inl ⟨rfl, hfinds hdepth htwo⟩, fun _ ↦ iff_of_true rfl
      ⟨takenDeep_of_depth hdepth hone htwo, htaken.symm⟩⟩

theorem extractName_directory (c e : Component) (cs : List Component) :
    extractName (mkPath (c :: e :: cs) false) = .ok (cs.getLastD e).text := by
  have hname := extractName_mkPath (c :: e :: cs).dropLast
    ((c :: e :: cs).getLast (List.cons_ne_nil _ _)) false
  rwa [List.dropLast_append_getLast, getLast_eq_getLastD] at hname

/-- Whether a directory is hidden. -/
theorem isHidden_directory {hidden : Bool}
    (h : isHidden (mkPath (c :: e :: cs) false) = .ok hidden) :
    hidden = true ↔ (cs.getLastD e).text.head? = some '.' := by
  rw [isHidden, extractName_directory, ok_bind, pure_eq_ok] at h
  obtain rfl := Except.ok.inj h
  exact beq_iff_eq

/-- The two entries a directory always has are hidden. -/
theorem Component.Plain.mem_finalizeFiller (h : n.Plain) (names : List Str) :
    n.text ∈ finalizeFiller names ↔ n.text ∈ names := by
  have hdot : n.text ≠ ['.'] := fun heq ↦ h.1 (by rw [heq]; rfl)
  have hdots : n.text ≠ ['.', '.'] := fun heq ↦ h.1 (by rw [heq]; rfl)
  simp [finalizeFiller, hdot, hdots]

/-- A directory that is listed, at the depth it is taken to be at. -/
theorem mem_listing_iff_shows (hplain : n.Plain)
    (hhidden : isHidden (mkPath (c :: e :: cs) false) = .ok false)
    (hdepth : pathDepth (mkPath (c :: e :: cs) false) = .ok depth)
    (htaken : TakenDeep (c :: e :: cs) → s.takenForContainer io
      [c.text, e.text, (cs.getLastD e).text] (content.record e.text (cs.getLastD e).text) = true)
    {answer : Answer} (hanswer : answer = s.inUse io.now content (directoryQuery depth c e cs)) :
    n.text ∈ finalizeFiller answer.names ↔ Shows io s content c e cs n := by
  rw [hplain.mem_finalizeFiller, hanswer]
  refine ⟨fun hmem ↦ ⟨?_, htaken, depth, hdepth, hmem⟩, fun hshown ↦ ?_⟩
  · exact mt (isHidden_directory hhidden).2 Bool.false_ne_true
  · obtain ⟨other, hother, hmem⟩ := hshown.listed
    obtain rfl := Except.ok.inj (hother.symm.trans hdepth)
    exact hmem

/-- **What a directory shows** behind the gate. -/
theorem readdirEnds_served (hserves : Serves io params s.didStringRemainder content)
    (hparams : getServerParams s.servers c.text = some params) (hplain : n.Plain)
    (h : ReaddirEnds io (mkPath (c :: e :: cs) false) caller s listed t) :
    n.text ∈ listed.2 ↔ Shows io s content c e cs n := by
  have hroot' := isRootPath_mkPath (List.cons_ne_nil c (e :: cs)) false
  have hserver' := extractServerName_mkPath c (e :: cs) false
  have hscope' := extractScope_mkPath c e cs false
  induction h with
  | skipped hhidden =>
    have hdot := (isHidden_directory hhidden).1 rfl
    exact iff_of_false List.not_mem_nil fun hshown ↦ hshown.visible hdot
  | root _ hroot => exact absurd (hroot'.symm.trans hroot) Bool.false_ne_true
  | server hhidden _ hdepth hscopes =>
    rw [hserver'] at hscopes
    have hshallow := not_takenDeep_of_depth hdepth (Or.inl rfl)
    exact mem_listing_iff_shows hplain hhidden hdepth (fun hdeep ↦ absurd hdeep hshallow)
      (listing_served hserves hparams (run_scopes hscopes))
  | scope hhidden _ hdepth hscope hdids =>
    rw [hserver'] at hdids
    obtain rfl := Except.ok.inj (hscope'.symm.trans hscope)
    have hshallow := not_takenDeep_of_depth hdepth (Or.inr rfl)
    exact mem_listing_iff_shows hplain hhidden hdepth (fun hdeep ↦ absurd hdeep hshallow)
      (listing_served hserves hparams (run_dids hdids))
  | container hhidden _ hdepth hone htwo hcontainer hscope hname hdids =>
    have htaken := isContainer_served hserves hparams hcontainer
    obtain ⟨hsettings, hremainder⟩ := frame_rucioIsContainer hcontainer
    obtain rfl := Except.ok.inj (hscope'.symm.trans hscope)
    obtain rfl := Except.ok.inj ((extractName_directory c e cs).symm.trans hname)
    rw [hserver'] at hdids
    have hquery : directoryQuery _ c e cs = _ := directoryQuery_of_deep hone htwo
    -- the lookup that comes first leaves the listings alone
    have hlisted := listing_served (hremainder.symm ▸ hserves)
      ((hsettings.getServerParams c.text).trans hparams)
      (by rw [hquery]; exact run_containerDids hdids)
    rw [State.inUse, expiring_rucioIsContainer hcontainer, ← State.inUse] at hlisted
    exact mem_listing_iff_shows hplain hhidden hdepth (fun _ ↦ htaken.symm) hlisted
  | file hhidden _ hdepth hone htwo hcontainer =>
    have htaken := isContainer_served hserves hparams hcontainer
    refine iff_of_false List.not_mem_nil fun hshown ↦ ?_
    exact Bool.false_ne_true (htaken.trans
      (hshown.directory (takenDeep_of_depth hdepth hone htwo)))

/-! ### The gate does not matter -/

theorem Quiet.finds_iff (h : Quiet s t) :
    Finds io t content c e cs ↔ Finds io s content c e cs := by
  rw [Finds, Finds, h.inUse]

theorem Quiet.takenForFile_iff (h : Quiet s t) :
    TakenForFile io t content c e cs ↔ TakenForFile io s content c e cs := by
  rw [TakenForFile, TakenForFile, h.takenForContainer]

theorem Quiet.shows_iff (h : Quiet s t) :
    Shows io t content c e cs n ↔ Shows io s content c e cs n := by
  constructor
  · rintro ⟨hvisible, hdirectory, depth, hdepth, hmem⟩
    rw [h.takenForContainer] at hdirectory
    rw [h.inUse] at hmem
    exact ⟨hvisible, hdirectory, depth, hdepth, hmem⟩
  · rintro ⟨hvisible, hdirectory, depth, hdepth, hmem⟩
    rw [← h.takenForContainer] at hdirectory
    rw [← h.inUse] at hmem
    exact ⟨hvisible, hdirectory, depth, hdepth, hmem⟩

/-- **What a lookup finds**: something, unless the path is taken for a scope that does not exist. -/
theorem getattr_served (hserves : Serves io params m.rest.didStringRemainder content)
    (hparams : getServerParams m.rest.servers c.text = some params)
    (hadmitted : Admitted io (mkPath (c :: e :: cs) false) caller m.rest) (hplain : n.Plain)
    (h : rucioGetattr io (mkPath (c :: e :: (cs ++ [n])) false) caller st m = .ok (found, m₁)) :
    (found.1 = 0 ∧ Finds io m.rest content c e (cs ++ [n]) ∨
      found.1 = -eNOENT ∧ ¬Finds io m.rest content c e (cs ++ [n])) ∧
    (found.1 = 0 → (found.2.mode = fileMode ↔ TakenForFile io m.rest content c e (cs ++ [n]))) := by
  have hadmitted' : Admitted io (mkPath (c :: e :: (cs ++ [n])) false) caller m.rest := by
    refine (admitted_congr ?_ ?_).1 hadmitted
    · rw [isRootPath_mkPath (List.cons_ne_nil c (e :: (cs ++ [n]))) false,
        isRootPath_mkPath (List.cons_ne_nil c (e :: cs)) false]
    · rw [extractServerName_mkPath, extractServerName_mkPath]
  rcases getattrRuns_of_eq_ok h with hname | hgate | @⟨_, s, t, -, -, hgate, hends⟩
  · have hhidden := isHidden_mkPath (c :: e :: cs) n
    have hmac := isMacSpecific_mkPath (c :: e :: cs) n
    simp only [List.cons_append] at hhidden hmac
    rw [hhidden, hmac] at hname
    obtain ⟨hdot, hhead, hdcim⟩ := hplain
    rcases hname with hname | hname
    · exact absurd (eq_of_beq (Except.ok.inj hname)) hdot
    · rcases Bool.or_eq_true_iff.1 (Except.ok.inj hname) with heq | heq
      · exact absurd (eq_of_beq heq) hhead
      · exact absurd (eq_of_beq heq) hdcim
  · exact absurd ((admitted_of_authGate hgate).2 hadmitted') Bool.false_ne_true
  · have hquiet := quiet_authGate hgate
    have hserved := getattrEnds_served (hquiet.remainder.symm ▸ hserves)
      ((hquiet.settings.getServerParams c.text).trans hparams) hends
    rwa [hquiet.finds_iff, hquiet.takenForFile_iff] at hserved

/-- **What a directory shows.** -/
theorem readdir_served (hserves : Serves io params m.rest.didStringRemainder content)
    (hparams : getServerParams m.rest.servers c.text = some params)
    (hadmitted : Admitted io (mkPath (c :: e :: cs) false) caller m.rest) (hplain : n.Plain)
    (h : rucioReaddir io (mkPath (c :: e :: cs) false) caller m = .ok (listed, m₂)) :
    n.text ∈ listed.2 ↔ Shows io m.rest content c e cs n := by
  rcases readdirRuns_of_eq_ok h with hgate | @⟨_, s, t, hgate, hends⟩
  · exact absurd ((admitted_of_authGate hgate).2 hadmitted) Bool.false_ne_true
  · have hquiet := quiet_authGate hgate
    rw [← hquiet.shows_iff]
    exact readdirEnds_served (hquiet.remainder.symm ▸ hserves)
      ((hquiet.settings.getServerParams c.text).trans hparams) hplain hends

/-- **When lookups agree with listings.** Take any server content, any state, any user who is let
in, any path of a scope or container and any name that is neither hidden nor one of those a Mac asks
for, and let no request fail. Then the following three hold together exactly if `LookupAgrees` holds
whenever something is found: a name that is found is one that the directory shows at that state, a
name the server does not attach to the directory is reported to be absent, and only files are
reported as files. -/
theorem lookup_agrees_iff (hserves : Serves io params m.rest.didStringRemainder content)
    (hparams : getServerParams m.rest.servers c.text = some params)
    (hadmitted : Admitted io (mkPath (c :: e :: cs) false) caller m.rest) (hplain : n.Plain)
    (hget : rucioGetattr io (entryPath (mkPath (c :: e :: cs) false) n.text) caller st m =
      .ok (found, m₁))
    (hread : rucioReaddir io (mkPath (c :: e :: cs) false) caller m = .ok (listed, m₂)) :
    ((found.1 = 0 → n.text ∈ listed.2) ∧
      (¬content.attached e.text (cs.getLast?.map Component.text) n.text → found.1 = -eNOENT) ∧
      (found.1 = 0 → found.2.mode = fileMode → content.kind e.text n.text = some .rucioFile)) ↔
    (Finds io m.rest content c e (cs ++ [n]) → LookupAgrees io m.rest content c e cs n) := by
  rw [entryPath_mkPath] at hget
  obtain ⟨hfound, hmode⟩ := getattr_served hserves hparams hadmitted hplain hget
  have hshown := readdir_served hserves hparams hadmitted hplain hread
  rw [hshown]
  rcases hfound with ⟨hzero, hfinds⟩ | ⟨habsent, hfinds⟩
  · have hnoent : found.1 ≠ -eNOENT := by
      rw [hzero]
      decide
    rw [imp_iff_right hzero, imp_iff_right hzero, imp_iff_right hfinds, hmode hzero]
    constructor
    · rintro ⟨hshows, hattached, hfile⟩
      exact ⟨by_contra fun hnot ↦ hnoent (hattached hnot), hshows, hfile⟩
    · rintro ⟨hattached, hshows, hfile⟩
      exact ⟨hshows, fun hnot ↦ absurd hattached hnot, hfile⟩
  · have hnonzero : found.1 ≠ 0 := by
      rw [habsent]
      decide
    exact iff_of_true ⟨fun hzero ↦ absurd hzero hnonzero, fun _ ↦ habsent,
      fun hzero ↦ absurd hzero hnonzero⟩ fun hfinds' ↦ absurd hfinds' hfinds

end Agreement

/-! ### A scope with one file -/

/-- The record of the file `f` of the scope `x`. -/
def recordF : Str :=
  "\x7b\"scope\": \"x\", \"type\": \"FILE\", \"bytes\": 1, \"name\": \"f\"\x7d".toList

/-- What a server answers if it does not know a DID. -/
def didNotFound : Str := "\x7b\"ExceptionClass\": \"DataIdentifierNotFound\"\x7d".toList

/-- How the server is reached. -/
def holdersParams : ConnectionParameters := ⟨['h'], [], [], [], .userpass, []⟩

/-- What a server answers whose only scope `x` holds the file `f`, and nothing else. -/
def oneFileAnswer (url : Str) : Str :=
  if url = holdersParams.serverUrl ++ "/scopes/".toList then "[\"x\"]".toList
  else if url = holdersParams.serverUrl ++ (Query.dids ['s'] ['x']).resource ∨
      url = holdersParams.serverUrl ++ didResource ['x'] ['f'] then recordF
  else didNotFound

/-- The world with that server. -/
def oneFileIo : Io := { sampleIo with net := fun _ request ↦ ⟨0, [oneFileAnswer request.url]⟩ }

/-- What that server has. The parser makes a DID without a name of the other answer. -/
def oneFile : Content where
  attached scope container name := scope = ['x'] ∧ container = none ∧ name = ['f']
  kind scope name := if scope = ['x'] ∧ name = ['f'] then some .rucioFile else none
  scopes := [['x']]
  listed scope container :=
    if scope = ['x'] ∧ container = none then [⟨['x'], some .rucioFile, ['f'], [], some 1, 0⟩]
    else [⟨[], none, [], [], none, 0⟩]
  record scope name := if scope = ['x'] ∧ name = ['f'] then recordF else didNotFound

/-! The addresses of scopes, of containers and of DIDs are told apart by their last letters. -/

section Addresses

variable {a b e x n f q z : Str}

theorem scopeUrl_inj : a ++ (b ++ e ++ ['/']) = a ++ (b ++ x ++ ['/']) ↔ e = x := by simp

/-- Texts that end differently. -/
theorem append_ne_append {u v : Str} (hz : z ≠ []) (hn : n ≠ []) (h : z.getLast? ≠ n.getLast?) :
    u ++ z ≠ v ++ n := by
  intro heq
  have hlast := congrArg List.getLast? heq
  rw [List.getLast?_append, List.getLast?_eq_some_getLast hz, Option.some_or,
    List.getLast?_append, List.getLast?_eq_some_getLast hn, Option.some_or,
    ← List.getLast?_eq_some_getLast hz, ← List.getLast?_eq_some_getLast hn] at hlast
  exact h hlast

theorem recordUrl_ne_scopeUrl (hn : n ≠ []) (hslash : '/' ∉ n) :
    a ++ (b ++ e ++ ['/'] ++ n) ≠ a ++ (b ++ x ++ ['/']) := by
  intro heq
  refine append_ne_append hn (by decide) ?_ (List.append_cancel_left heq)
  rw [List.getLast?_eq_some_getLast hn]
  intro hlast
  have hslash' : n.getLast hn = '/' := Option.some.inj hlast
  exact hslash (hslash' ▸ List.getLast_mem hn)

theorem containerUrl_ne_scopeUrl (hz : z ≠ []) (h : z.getLast? ≠ some '/') :
    a ++ (b ++ e ++ ['/'] ++ f ++ z) ≠ a ++ (b ++ x ++ ['/']) :=
  fun heq ↦ append_ne_append hz (List.cons_ne_nil '/' []) h (List.append_cancel_left heq)

theorem containerUrl_ne_recordUrl (hz : z ≠ []) (hn : n ≠ []) (h : z.getLast? ≠ n.getLast?) :
    a ++ (b ++ e ++ ['/'] ++ f ++ z) ≠ a ++ (b ++ x ++ ['/'] ++ n) :=
  fun heq ↦ append_ne_append hz hn h (List.append_cancel_left heq)

theorem recordUrl_ne_of_front (h : ¬b <+: q) : a ++ (b ++ e ++ ['/'] ++ n) ≠ a ++ q := by
  intro heq
  refine h ⟨e ++ ['/'] ++ n, ?_⟩
  rw [← List.append_cancel_left heq, List.append_assoc, List.append_assoc, List.append_assoc]

theorem nul_notMem_recordUrl (ha : '\x00' ∉ a) (hb : '\x00' ∉ b) (he : '\x00' ∉ e)
    (hn : '\x00' ∉ n) : '\x00' ∉ a ++ (b ++ e ++ ['/'] ++ n) := by
  simp [ha, hb, he, hn]

theorem recordUrl_inj (he : '/' ∉ e) (hx : '/' ∉ x) :
    a ++ (b ++ e ++ ['/'] ++ n) = a ++ (b ++ x ++ ['/'] ++ f) ↔ e = x ∧ n = f := by
  refine ⟨fun heq ↦ ?_, fun ⟨hscope, hname⟩ ↦ by rw [hscope, hname]⟩
  have htail : e ++ '/' :: n = x ++ '/' :: f := by simpa using heq
  have hscope : e = x := by
    have hcut := congrArg cutAtSlash htail
    rwa [cutAtSlash_cons he, cutAtSlash_cons hx] at hcut
  subst hscope
  exact ⟨rfl, by simpa using htail⟩

end Addresses

section OneFile

variable {e n : Component}

theorem nul_notMem_address : '\x00' ∉ holdersParams.serverUrl := by decide

/-- The parts of the addresses: no terminators, the first letters, the last letters. -/
theorem address_parts :
    ('\x00' ∉ "/scopes/".toList ∧ '\x00' ∉ "/dids/".toList ∧ '\x00' ∉ "/dids".toList) ∧
      ¬"/dids/".toList <+: "/scopes/".toList ∧ "/dids".toList.getLast? = some 's' := by
  decide +kernel

/-- The address of a scope is sent as it is, and is not the one of the scopes. -/
theorem scopeUrl_asSent (server : Str) (e : Component) :
    cStr (holdersParams.serverUrl ++ (Query.dids server e.text).resource) =
        holdersParams.serverUrl ++ ("/dids/".toList ++ e.text ++ ['/']) ∧
      holdersParams.serverUrl ++ ("/dids/".toList ++ e.text ++ ['/']) ≠
        holdersParams.serverUrl ++ "/scopes/".toList := by
  obtain ⟨⟨-, hdids, -⟩, hfront, -⟩ := address_parts
  have hnul := nul_notMem_recordUrl nul_notMem_address hdids e.nul_notMem List.not_mem_nil
  have hscopes := recordUrl_ne_of_front (a := holdersParams.serverUrl) (e := e.text) (n := [])
    hfront
  rw [List.append_nil] at hnul hscopes
  exact ⟨cStr_of_nul_notMem hnul, hscopes⟩

/-- So is that of a container. -/
theorem containerUrl_asSent (server : Str) (e n : Component) :
    cStr (holdersParams.serverUrl ++ (Query.containerDids server e.text n.text).resource) =
        holdersParams.serverUrl ++
          ("/dids/".toList ++ e.text ++ ['/'] ++ n.text ++ "/dids".toList) ∧
      holdersParams.serverUrl ++
          ("/dids/".toList ++ e.text ++ ['/'] ++ n.text ++ "/dids".toList) ≠
        holdersParams.serverUrl ++ "/scopes/".toList := by
  obtain ⟨⟨-, hdids, hdids'⟩, hfront, -⟩ := address_parts
  have hname : '\x00' ∉ n.text ++ "/dids".toList := fun hmem ↦
    (List.mem_append.1 hmem).elim n.nul_notMem hdids'
  have hnul := nul_notMem_recordUrl nul_notMem_address hdids e.nul_notMem hname
  have hscopes := recordUrl_ne_of_front (a := holdersParams.serverUrl) (e := e.text)
    (n := n.text ++ "/dids".toList) hfront
  rw [← List.append_assoc (_ ++ ['/'])] at hnul hscopes
  exact ⟨cStr_of_nul_notMem hnul, hscopes⟩

/-- And that of a DID. -/
theorem recordUrl_asSent (e n : Component) :
    cStr (holdersParams.serverUrl ++ didResource e.text n.text) =
        holdersParams.serverUrl ++ ("/dids/".toList ++ e.text ++ ['/'] ++ n.text) ∧
      holdersParams.serverUrl ++ ("/dids/".toList ++ e.text ++ ['/'] ++ n.text) ≠
        holdersParams.serverUrl ++ "/scopes/".toList := by
  obtain ⟨⟨-, hdids, -⟩, hfront, -⟩ := address_parts
  have hnul := nul_notMem_recordUrl nul_notMem_address hdids e.nul_notMem n.nul_notMem
  exact ⟨cStr_of_nul_notMem hnul, recordUrl_ne_of_front hfront⟩

/-- The end of the address of a container. -/
theorem containerEnd : "/dids".toList ≠ [] ∧ "/dids".toList.getLast? ≠ some '/' ∧
    "/dids".toList.getLast? ≠ (['f'] : Str).getLast? ∧
    "/dids".toList.getLast? ≠ (['c'] : Str).getLast? := by
  obtain ⟨-, -, hend⟩ := address_parts
  rw [hend]
  refine ⟨fun hnil ↦ ?_, by decide, by decide, by decide⟩
  rw [hnil] at hend
  cases hend

/-- The address of a scope is answered with the file exactly for the scope `x`. -/
theorem oneFileAnswer_scope (server : Str) (e : Component) :
    oneFileAnswer (cStr (holdersParams.serverUrl ++ (Query.dids server e.text).resource)) =
      if e.text = ['x'] then recordF else didNotFound := by
  obtain ⟨hsent, hscopes⟩ := scopeUrl_asSent server e
  rw [oneFileAnswer, hsent, if_neg hscopes]
  refine if_congr ?_ rfl rfl
  rw [or_iff_left]
  · exact scopeUrl_inj
  · exact (recordUrl_ne_scopeUrl (by decide) (by decide)).symm

/-- The address of a container is never answered with the file. -/
theorem oneFileAnswer_container (server : Str) (e n : Component) :
    oneFileAnswer (cStr (holdersParams.serverUrl ++
      (Query.containerDids server e.text n.text).resource)) = didNotFound := by
  obtain ⟨hsent, hscopes⟩ := containerUrl_asSent server e n
  obtain ⟨hne, hslash, hfile, -⟩ := containerEnd
  rw [oneFileAnswer, hsent, if_neg hscopes]
  refine if_neg (not_or.2 ⟨?_, ?_⟩)
  · exact containerUrl_ne_scopeUrl hne hslash
  · exact containerUrl_ne_recordUrl hne (by decide) hfile

/-- The address of a DID is answered with the file exactly for the DID `x:f`. -/
theorem oneFileAnswer_record (e n : Component) :
    oneFileAnswer (cStr (holdersParams.serverUrl ++ didResource e.text n.text)) =
      if e.text = ['x'] ∧ n.text = ['f'] then recordF else didNotFound := by
  obtain ⟨hsent, hscopes⟩ := recordUrl_asSent e n
  rw [oneFileAnswer, hsent, if_neg hscopes]
  refine if_congr ?_ rfl rfl
  rw [or_iff_right]
  · exact recordUrl_inj e.slash_notMem (by decide)
  · exact recordUrl_ne_scopeUrl n.ne_nil n.slash_notMem

end OneFile

/-- What the parsers read off the answers. -/
theorem parse_oneFile :
    tokenizeAll ["[\"x\"]".toList] [] = .ok [['x']] ∧
      structurizeAll structurizeDid [] [recordF] [] =
        .ok ([], [⟨['x'], some .rucioFile, ['f'], [], some 1, 0⟩]) ∧
      structurizeAll structurizeDid [] [didNotFound] [] = .ok ([], [⟨[], none, [], [], none, 0⟩]) ∧
      structurizeAll structurizeContainerDid [] [didNotFound] [] =
        .ok ([], [⟨[], none, [], [], none, 0⟩]) := by
  decide +kernel

/-- **The world is one of such a server.** -/
theorem serves_oneFile : Serves oneFileIo holdersParams [] oneFile where
  ok _ _ := rfl
  scopes log request hurl scopes h := by
    have hnul : '\x00' ∉ holdersParams.serverUrl ++ "/scopes/".toList := fun hmem ↦
      (List.mem_append.1 hmem).elim nul_notMem_address address_parts.1.1
    have hnet : (oneFileIo.net log request).payload = [oneFileAnswer request.url] := rfl
    rw [hnet, hurl, cStr_of_nul_notMem hnul, oneFileAnswer, if_pos rfl] at h
    exact Except.ok.inj (h.symm.trans parse_oneFile.1)
  listing c e cs log request hurl parsed h := by
    have hnet : (oneFileIo.net log request).payload = [oneFileAnswer request.url] := rfl
    rw [hnet, hurl] at h
    rw [listingOf] at h ⊢
    generalize cs.getLast? = last at h ⊢
    rcases last with - | d
    · obtain ⟨dids, hdids, hret⟩ := bind_eq_ok.1 h
      obtain rfl := Except.ok.inj hret
      dsimp only at hdids
      rw [oneFileAnswer_scope] at hdids
      by_cases he : e.text = ['x']
      · rw [if_pos he] at hdids
        obtain rfl := Except.ok.inj (hdids.symm.trans parse_oneFile.2.1)
        exact congrArg Answer.dids (if_pos ⟨he, rfl⟩).symm
      · rw [if_neg he] at hdids
        obtain rfl := Except.ok.inj (hdids.symm.trans parse_oneFile.2.2.1)
        exact congrArg Answer.dids (if_neg fun h ↦ he h.1).symm
    · obtain ⟨dids, hdids, hret⟩ := bind_eq_ok.1 h
      obtain rfl := Except.ok.inj hret
      dsimp only at hdids
      rw [oneFileAnswer_container] at hdids
      obtain rfl := Except.ok.inj (hdids.symm.trans parse_oneFile.2.2.2)
      exact congrArg Answer.dids (if_neg fun h ↦ by simpa using h.2).symm
  record e n log request hurl front hfront := by
    have hnet : (oneFileIo.net log request).payload = [oneFileAnswer request.url] := rfl
    rw [hnet, hurl, oneFileAnswer_record] at hfront
    exact (Option.some.inj hfront).symm

/-- A file. -/
def fileF : Component := ⟨['f'], by decide, by decide, by decide⟩

theorem admitted_holder :
    Admitted oneFileIo (mkPath [serverS, scopeX] false) sampleCaller holdersMount.rest := by
  obtain ⟨t, ht⟩ := exists_of_map_fst_eq_ok (by decide +kernel :
    (authGate oneFileIo (mkPath [serverS, scopeX] false) sampleCaller holdersMount.rest).map
      Prod.fst = .ok true)
  exact (admitted_of_authGate ht).1 rfl

/-- The file is found where it is listed. -/
theorem lookup_agrees_iff_listed_file :
    ∃ found m₁ listed m₂,
      rucioGetattr oneFileIo (entryPath (mkPath [serverS, scopeX] false) fileF.text) sampleCaller {}
        holdersMount = .ok (found, m₁) ∧
      rucioReaddir oneFileIo (mkPath [serverS, scopeX] false) sampleCaller holdersMount =
        .ok (listed, m₂) ∧
      (found.1 = 0 → fileF.text ∈ listed.2) ∧
      (¬oneFile.attached ['x'] none fileF.text → found.1 = -eNOENT) ∧
      (found.1 = 0 → found.2.mode = fileMode →
        oneFile.kind ['x'] fileF.text = some .rucioFile) := by
  obtain ⟨m₁, hget⟩ := exists_of_map_fst_eq_ok (by decide +kernel :
    (rucioGetattr oneFileIo (entryPath (mkPath [serverS, scopeX] false) fileF.text) sampleCaller {}
      holdersMount).map Prod.fst =
        .ok (0, { atime := 1000000, mtime := 1000000, mode := fileMode, nlink := 1, size := 1 }))
  obtain ⟨m₂, hread⟩ := exists_of_map_fst_eq_ok (by decide +kernel :
    (rucioReaddir oneFileIo (mkPath [serverS, scopeX] false) sampleCaller holdersMount).map
      Prod.fst = .ok (0, [['f'], ['.'], ['.', '.']]))
  have hdepth : pathDepth (mkPath [serverS, scopeX] false) = .ok 2 := by decide +kernel
  have hshown : Shows oneFileIo holdersMount.rest oneFile serverS scopeX [] fileF :=
    ⟨by decide, fun hdeep ↦ absurd hdeep (not_takenDeep_of_depth hdepth (Or.inr rfl)),
      2, hdepth, List.mem_singleton_self _⟩
  have hagrees : LookupAgrees oneFileIo holdersMount.rest oneFile serverS scopeX [] fileF :=
    ⟨⟨rfl, rfl, rfl⟩, hshown, fun _ ↦ rfl⟩
  exact ⟨_, m₁, _, m₂, hget, hread, (@lookup_agrees_iff oneFileIo holdersParams oneFile sampleCaller
    {} holdersMount m₁ m₂ serverS scopeX fileF [] _ _ serves_oneFile rfl admitted_holder
    ⟨by decide, by decide +kernel, by decide +kernel⟩ hget hread).2 fun _ ↦ hagrees⟩

/-- **A name nobody has heard of.** The server has no DID `x:z`, and the scope does not show it; the
program finds a file there, with the size -1. -/
theorem unknown_name_found :
    Serves oneFileIo holdersParams holdersMount.rest.didStringRemainder oneFile ∧
      ¬oneFile.attached ['x'] none ['z'] ∧ oneFile.kind ['x'] ['z'] = none ∧
      (rucioGetattr oneFileIo ['/', 's', '/', 'x', '/', 'z'] sampleCaller {} holdersMount).map
        (fun found ↦ (found.1.1, found.1.2.mode, found.1.2.size)) = .ok (0, fileMode, -1) ∧
      (rucioReaddir oneFileIo ['/', 's', '/', 'x'] sampleCaller holdersMount).map Prod.fst =
        .ok (0, [['f'], ['.'], ['.', '.']]) := by
  refine ⟨serves_oneFile, ?_, rfl, by decide +kernel, by decide +kernel⟩
  exact fun h ↦ absurd h.2.2 (by decide)

end FusePosix
