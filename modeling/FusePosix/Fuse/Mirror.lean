import FusePosix.Fuse.Agreement
import FusePosix.Fuse.Inventory
import FusePosix.Fuse.Sent

/-!
# The mount shows what the servers have

With servers that print an inventory, every callback returns, and a user who is let through the gate
is shown the tree of the inventory: directories with the names that are in them, and files with
their sizes. It makes no difference who has called before, what the caches hold, or whether their
entries have expired.

The proof has two halves, each with one lemma for each depth of a path. On paths of the tree a
callback returns what the inventory has there (`Knows.getattrBody`, `Knows.readdirBody`). On any
path that can be looked up, whatever is there, it leaves the caches with nothing but what the
servers have (`Knows.of_getattrBody`, `Knows.of_readdirBody`), so that the next callback finds them
right. Which calls a callback makes at a depth is read off its definition once, in front of both
(`getattrBody_deep` and its siblings).

**What is assumed of the servers** is `Inventory.Prints`, and it is not what every server does. The
records of a listing of DIDs may be cut anywhere. But a list of scopes must be cut between its
elements, and the record of a single DID must have its type in the first chunk and its size within
one: otherwise other scopes, another kind or another size are shown, as is proved in
`FusePosix.Rest.Scopes` and `FusePosix.Rest.Sizes`. Sizes fit an `int`, no two scopes and no two
DIDs share a cache key, and the names of scopes have no character that the tokenizer drops.

**Not claimed:** anything about paths that lead nowhere, except that looking them up does no harm
(`Lookable` says of which this is true), and nothing about paths of 2¹⁵ components or more, whose
depth the source counts wrong. Callbacks are taken one after the other.
-/

namespace FusePosix

open Transition Reassembly

namespace Inventory

open Catalogue (eq_singleton_of_depth eq_pair_of_depth eq_deep_of_depth)

/-! ### The callbacks at each depth

What a callback reads off a path depends on how deep the path is. Here it is read off once, and what
is left are the calls of the client with the names of the path. -/

section Depths

variable {io : Io} {caller : Caller} {s : State} {st : Stat} {c e d : Component}
  {cs ds : List Component}

/-- The checks of the depth look at the number of components. -/
theorem isServerMountpoint_pathOf (hne : cs ≠ []) (hshort : cs.length < 2 ^ 15) :
    isServerMountpoint (pathOf cs) = .ok (decide (cs.length = 1)) ∧
      isMainScope (pathOf cs) = .ok (decide (cs.length = 2)) := by
  obtain ⟨c, ds, rfl⟩ := List.exists_cons_of_ne_nil hne
  have hcount : (mkPath (c :: ds) false).count '/' < 32768 := by
    rw [count_mkPath]
    simpa using hshort
  have hdepth : pathDepth (pathOf (c :: ds)) = .ok ((c :: ds).length : ℤ) :=
    pathDepth_mkPath hne false hcount
  rw [isServerMountpoint, isMainScope_of_depth hdepth, hdepth, ok_bind, pure_eq_ok]
  refine ⟨congrArg Except.ok ?_, congrArg Except.ok ?_⟩
  · rw [Bool.eq_iff_iff, beq_iff_eq, decide_eq_true_iff]
    omega
  · rw [Bool.eq_iff_iff, beq_iff_eq, decide_eq_true_iff]
    omega

/-- What is read off the path of a server, -/
theorem path_server (c : Component) : isRootPath (pathOf [c]) = false ∧
    isServerMountpoint (pathOf [c]) = .ok true ∧ extractServerName (pathOf [c]) = c.text :=
  ⟨isRootPath_mkPath (List.cons_ne_nil c []) false,
    (isServerMountpoint_pathOf (List.cons_ne_nil c []) (by simp)).1,
    extractServerName_mkPath c [] false⟩

/-- off the path of a scope, -/
theorem path_scope (c e : Component) : isRootPath (pathOf [c, e]) = false ∧
    isServerMountpoint (pathOf [c, e]) = .ok false ∧ isMainScope (pathOf [c, e]) = .ok true ∧
    extractServerName (pathOf [c, e]) = c.text ∧ extractScope (pathOf [c, e]) = .ok e.text := by
  obtain ⟨hone, htwo⟩ := isServerMountpoint_pathOf (List.cons_ne_nil c [e]) (by simp)
  exact ⟨isRootPath_mkPath (List.cons_ne_nil c [e]) false, hone, htwo,
    extractServerName_mkPath c [e] false, extractScope_mkPath c e [] false⟩

/-- and off a longer one. -/
theorem path_deep (hshort : (c :: e :: (ds ++ [d])).length < 2 ^ 15) :
    isRootPath (pathOf (c :: e :: (ds ++ [d]))) = false ∧
    isServerMountpoint (pathOf (c :: e :: (ds ++ [d]))) = .ok false ∧
    isMainScope (pathOf (c :: e :: (ds ++ [d]))) = .ok false ∧
    extractServerName (pathOf (c :: e :: (ds ++ [d]))) = c.text ∧
    extractScope (pathOf (c :: e :: (ds ++ [d]))) = .ok e.text ∧
    extractName (pathOf (c :: e :: (ds ++ [d]))) = .ok d.text := by
  obtain ⟨hone, htwo⟩ := isServerMountpoint_pathOf (List.cons_ne_nil c _) hshort
  refine ⟨isRootPath_mkPath (List.cons_ne_nil c _) false, ?_, ?_,
    extractServerName_mkPath c _ false, extractScope_mkPath c e _ false,
    extractName_mkPath (c :: e :: ds) d false⟩
  · rw [hone]
    exact congrArg Except.ok (decide_eq_false (by simp))
  · rw [htwo]
    exact congrArg Except.ok (decide_eq_false (by simp))

/-- `rucio_getattr` at a server. -/
theorem getattrBody_server : getattrBody io (pathOf [c]) caller st s =
    if !serverExists s.servers c.text then .ok ((-eNOENT, st.stamped io), s)
    else rucioListScopes io c.text caller s >>= fun listed ↦ .ok ((0, { st.stamped io with
      mode := directoryMode, nlink := 2 + listed.1.length }), listed.2) := by
  obtain ⟨hroot, hone, hserver⟩ := path_server c
  simp only [getattrBody, hroot, hone, hserver, ok_bind]
  rfl

/-- `rucio_getattr` at a scope. -/
theorem getattrBody_scope : getattrBody io (pathOf [c, e]) caller st s =
    scopeExists io c.text e.text caller s >>= fun found ↦
      if !found.1 then .ok ((-eNOENT, st.stamped io), found.2)
      else rucioListDids io e.text c.text caller found.2 >>= fun listed ↦
        .ok ((0, { st.stamped io with
          mode := directoryMode, nlink := 2 + listed.1.length }), listed.2) := by
  obtain ⟨hroot, hone, htwo, hserver, hscope⟩ := path_scope c e
  simp only [getattrBody, hroot, hone, htwo, hserver, hscope, ok_bind]
  rfl

/-- `rucio_getattr` below a scope. -/
theorem getattrBody_deep (hshort : (c :: e :: (ds ++ [d])).length < 2 ^ 15) :
    getattrBody io (pathOf (c :: e :: (ds ++ [d]))) caller st s =
      rucioIsContainer io (pathOf (c :: e :: (ds ++ [d]))) caller s >>= fun found ↦
        if found.1 then
          rucioListContainerDids io e.text d.text c.text caller found.2 >>= fun listed ↦
            .ok ((0, { st.stamped io with
              mode := directoryMode
              nlink := 2 + listed.1.length - countFiles io listed.1 }), listed.2)
        else rucioGetSize io (pathOf (c :: e :: (ds ++ [d]))) caller found.2 >>= fun size ↦
          .ok ((0, { st.stamped io with
            mode := fileMode, nlink := 1, size := size.1 }), size.2) := by
  obtain ⟨hroot, hone, htwo, hserver, hscope, hname⟩ := path_deep hshort
  simp only [getattrBody, hroot, hone, htwo, hserver, hscope, hname, ok_bind]
  rfl

/-- `rucio_readdir` at a server. -/
theorem readdirBody_server (hhidden : isHidden (pathOf [c]) = .ok false) :
    readdirBody io (pathOf [c]) caller s = rucioListScopes io c.text caller s >>= fun listed ↦
      .ok ((0, finalizeFiller listed.1), listed.2) := by
  obtain ⟨hroot, hone, hserver⟩ := path_server c
  simp only [readdirBody, hhidden, hroot, hone, hserver, ok_bind]
  rfl

/-- `rucio_readdir` at a scope. -/
theorem readdirBody_scope (hhidden : isHidden (pathOf [c, e]) = .ok false) :
    readdirBody io (pathOf [c, e]) caller s =
      rucioListDids io e.text c.text caller s >>= fun listed ↦
        .ok ((0, finalizeFiller (listed.1.map RucioDid.name)), listed.2) := by
  obtain ⟨hroot, hone, htwo, hserver, hscope⟩ := path_scope c e
  simp only [readdirBody, hhidden, hroot, hone, htwo, hserver, hscope, ok_bind]
  rfl

/-- `rucio_readdir` below a scope. -/
theorem readdirBody_deep (hshort : (c :: e :: (ds ++ [d])).length < 2 ^ 15)
    (hhidden : isHidden (pathOf (c :: e :: (ds ++ [d]))) = .ok false) :
    readdirBody io (pathOf (c :: e :: (ds ++ [d]))) caller s =
      rucioIsContainer io (pathOf (c :: e :: (ds ++ [d]))) caller s >>= fun found ↦
        if found.1 then
          rucioListContainerDids io e.text d.text c.text caller found.2 >>= fun listed ↦
            .ok ((0, finalizeFiller (listed.1.map RucioDid.name)), listed.2)
        else .ok ((0, []), found.2) := by
  obtain ⟨hroot, hone, htwo, hserver, hscope, hname⟩ := path_deep hshort
  simp only [readdirBody, hhidden, hroot, hone, htwo, hserver, hscope, hname, ok_bind]
  rfl

end Depths

/-! ### Calls return -/

section Returns

variable {inventory : Inventory} {servers : ServerMap} {serverNames : List Str} {io : Io}
  {caller : Caller} {s t : State} {c e n : Component} {params : ConnectionParameters}
  {resource : Str} {Good : List Str → Prop}

/-- A loaded server is asked and answers, as it should. -/
theorem Answers.exists_asked (hsettings : SameSettings servers s.servers)
    (hanswers : Answers servers io c resource Good)
    (hparams : getServerParams servers c.text = some params) (caller : Caller) :
    ∃ fields s₁ ret, getAuthHeaders io c.text caller s = .ok (some fields, s₁) ∧
      getServerParams s.servers c.text = some params ∧
      getServerParams s₁.servers c.text = some params ∧
      safeGET io (dataRequest params resource fields) s₁ =
        (ret, s₁.note (.sent (dataRequest params resource fields).asSent)) ∧
      ret.ok = true ∧ Good ret.payload ∧ s₁.didStringRemainder = s.didStringRemainder := by
  have hparams' := (hsettings.getServerParams c.text).trans hparams
  obtain ⟨srv, hfind, -⟩ := Option.map_eq_some_iff.1 hparams'
  obtain ⟨s₁, hheaders, -⟩ := @getAuthHeaders_of_find io c.text srv caller s hfind
  have hquiet := quiet_getAuthHeaders hheaders
  obtain ⟨hok, hgood⟩ := hanswers params s₁.log (dataRequest params resource _).asSent hparams rfl
  exact ⟨_, s₁, _, hheaders, hparams', (hquiet.settings.getServerParams c.text).trans hparams',
    by rw [safeGET_eq, curlGET_eq], hok, hgood, hquiet.remainder⟩

/-- The scopes of a loaded server are listed: the cache has them, or the answer can be read. -/
theorem Knows.exists_listScopes (h : inventory.Knows servers serverNames s)
    (hio : inventory.Prints servers io) (hparams : getServerParams servers c.text = some params) :
    ∃ result, FusePosix.rucioListScopes io c.text caller s = .ok result := by
  have hfetch : ∃ result, fetchScopes io c.text caller s = .ok result := by
    obtain ⟨fields, s₁, ret, hheaders, -, hparams', hget, hok, ⟨newline, hchunks, hcut⟩, -⟩ :=
      (hio.scopes c).exists_asked h.settings hparams caller
    have hnames : ∀ name ∈ (inventory.scopes c).map Component.text, ScopeName name := by
      intro name hname
      obtain ⟨e, he, rfl⟩ := List.mem_map.1 hname
      exact inventory.scopeName c e he
    rw [fetchScopes, hheaders, ok_bind]
    simp only [hparams', hget, hok, Bool.not_true, Bool.false_eq_true, if_false,
      tokenizeAll_of_cutBetween hnames hchunks hcut, ok_bind, pure_eq_ok]
    exact ⟨_, rfl⟩
  -- an entry that has not expired is used, and otherwise the fetch decides
  refine exists_of_fetch (s.scopesCache.find c.text) io.now
    (s.note (.used .scopes [c.text] c.text)) hfetch (fun hnone ↦ ?_) fun entry hsome ↦ ?_
  · rw [FusePosix.rucioListScopes, hnone]
  · rw [FusePosix.rucioListScopes, hsome]
    rfl

/-- The fetch that the listings of DIDs share returns, since nothing is left over of earlier answers
and the records of this one can be read. -/
theorem Knows.exists_fetchDids (h : inventory.Knows servers serverNames s)
    {shown : List Component}
    (hanswers : Answers servers io c resource (inventory.PrintsDids c e shown))
    (hparams : getServerParams servers c.text = some params)
    {fill : Table Str Str → RucioDid} (hfill : Fills fill)
    (caller : Caller) (store : State → ℤ × List RucioDid → State) :
    ∃ result, FusePosix.fetchDids io c.text e.text resource caller (structurizeWith mapDid fill)
      store s = .ok result := by
  obtain ⟨fields, s₁, ret, hheaders, hparams', -, hget, hok, hprints, hremainder⟩ :=
    hanswers.exists_asked h.settings hparams caller
  obtain ⟨dids, hread, -⟩ := hprints.structurizeAll hfill
  have hparse : parseDids (structurizeWith mapDid fill) ret.payload
      (s₁.note (.sent (dataRequest params resource fields).asSent)) =
        .ok (dids, { s₁.note (.sent (dataRequest params resource fields).asSent) with
          didStringRemainder := [] }) := by
    -- the parser starts with an empty remainder, so it sees these records only
    show (FusePosix.structurizeAll _ s₁.didStringRemainder _ _ >>= _) = _
    rw [hremainder, h.remainder, hread]
    rfl
  rw [FusePosix.fetchDids, hheaders, ok_bind]
  simp only [hparams', deref_some, ok_bind, hget, hok, Bool.not_true, Bool.false_eq_true, if_false,
    hparse, pure_eq_ok]
  exact ⟨_, rfl⟩

/-- The content of a scope is listed, -/
theorem Knows.exists_listDids (h : inventory.Knows servers serverNames s)
    (hio : inventory.Prints servers io) (hparams : getServerParams servers c.text = some params)
    (he : e ∈ inventory.scopes c) :
    ∃ result, FusePosix.rucioListDids io e.text c.text caller s = .ok result := by
  refine exists_of_fetch (s.didsCache.find (cacheKey [c.text, e.text])) io.now
    (s.note (.used .dids [c.text, e.text] (cacheKey [c.text, e.text])))
    (h.exists_fetchDids (hio.dids c e he) hparams fills_didOfMap caller
      fun s entry ↦ s.setDids [c.text, e.text] entry) (fun hnone ↦ ?_) fun entry hsome ↦ ?_
  · rw [FusePosix.rucioListDids, hnone]
    rfl
  · rw [FusePosix.rucioListDids, hsome]
    rfl

/-- and so is the content of a container. -/
theorem Knows.exists_listContainerDids (h : inventory.Knows servers serverNames s)
    (hio : inventory.Prints servers io) (hparams : getServerParams servers c.text = some params)
    {kind : DidKind} (hkind : inventory.kind c e n = some kind)
    (hdirectory : kind.isDirectory = true) :
    ∃ result, FusePosix.rucioListContainerDids io e.text n.text c.text caller s = .ok result := by
  refine exists_of_fetch (s.containerDidsCache.find (cacheKey [c.text, e.text, n.text])) io.now
    (s.note (.used .containerDids [c.text, e.text, n.text] (cacheKey [c.text, e.text, n.text])))
    (h.exists_fetchDids (hio.attached c e n kind hkind hdirectory) hparams fills_containerDidOfMap
      caller fun s entry ↦ s.setContainerDids [c.text, e.text, n.text] entry)
    (fun hnone ↦ ?_) fun entry hsome ↦ ?_
  · rw [FusePosix.rucioListContainerDids, hnone]
    rfl
  · rw [FusePosix.rucioListContainerDids, hsome]
    rfl

/-- The record of a DID comes back. -/
theorem Answers.exists_fetchDid (hsettings : SameSettings servers s.servers) {scope name : Str}
    (hanswers : Answers servers io c (didResource scope name) Good)
    (hparams : getServerParams servers c.text = some params) (caller : Caller) :
    ∃ chunks t, fetchDid io c.text scope name caller s = .ok (some chunks, t) ∧ Good chunks := by
  obtain ⟨fields, s₁, ret, hheaders, hparams', -, hget, hok, hgood, -⟩ :=
    hanswers.exists_asked hsettings hparams caller
  refine ⟨ret.payload, s₁.note (.sent (dataRequest params (didResource scope name) fields).asSent),
    ?_, hgood⟩
  have hget' : safeGET io (dataRequest params ("/dids/".toList ++ scope ++ ['/'] ++ name) fields)
      s₁ = (ret, s₁.note (.sent (dataRequest params (didResource scope name) fields).asSent)) :=
    hget
  rw [fetchDid, hheaders, ok_bind]
  simp only [hparams', deref_some, ok_bind, hget', hok, if_true, pure_eq_ok]

/-- A path to a DID is looked up, at any depth: only the last name counts. -/
theorem Knows.exists_isContainer (h : inventory.Knows servers serverNames s)
    (hio : inventory.Prints servers io) (hparams : getServerParams servers c.text = some params)
    {kind : DidKind} (hkind : inventory.kind c e n = some kind) (cs : List Component) :
    ∃ result, FusePosix.rucioIsContainer io (mkPath (c :: e :: (cs ++ [n])) false) caller s =
      .ok result := by
  have hentity := entityOfPath_deep c e n cs
  rcases hfound : s.isContainerCache.find (cacheKey [c.text, e.text, n.text]) with - | found
  · obtain ⟨chunks, t, hfetch, hprints⟩ :=
      (hio.record c e n kind hkind).exists_fetchDid h.settings hparams caller
    obtain ⟨front, rest, rfl, -⟩ := hprints.saysContainer
    exact ⟨_, rucioIsContainer_of_fetch hentity hfound hfetch⟩
  · exact ⟨_, rucioIsContainer_of_cached hentity hfound⟩

/-- So is its size. No answer makes the lookup fail: one without a size makes it return −1. -/
theorem Knows.exists_getSize (h : inventory.Knows servers serverNames s)
    (hio : inventory.Prints servers io) (hparams : getServerParams servers c.text = some params)
    {kind : DidKind} (hkind : inventory.kind c e n = some kind) (cs : List Component) :
    ∃ result, FusePosix.rucioGetSize io (mkPath (c :: e :: (cs ++ [n])) false) caller s =
      .ok result := by
  have hentity := entityOfPath_deep c e n cs
  rcases hfound : s.fileSizeCache.find (cacheKey [c.text, e.text, n.text]) with - | found
  · obtain ⟨chunks, t, hfetch, -⟩ :=
      (hio.record c e n kind hkind).exists_fetchDid h.settings hparams caller
    exact ⟨_, rucioGetSize_of_fetch hentity hfound hfetch⟩
  · exact ⟨_, rucioGetSize_of_cached hentity hfound⟩

/-- **The scopes of a server** are listed as the inventory has them. -/
theorem Knows.listScopes (h : inventory.Knows servers serverNames s)
    (hio : inventory.Prints servers io) (hparams : getServerParams servers c.text = some params)
    (caller : Caller) :
    ∃ t, FusePosix.rucioListScopes io c.text caller s =
        .ok ((inventory.scopes c).map Component.text, t) ∧
      inventory.Knows servers serverNames t := by
  obtain ⟨⟨scopes, t⟩, hrun⟩ := @Knows.exists_listScopes _ _ _ _ caller _ _ _ h hio hparams
  obtain ⟨ht, rfl⟩ := h.rucioListScopes hio hparams hrun
  exact ⟨t, hrun, ht⟩

/-- So are the DIDs of a scope, -/
theorem Knows.listDids (h : inventory.Knows servers serverNames s)
    (hio : inventory.Prints servers io) (hparams : getServerParams servers c.text = some params)
    (he : e ∈ inventory.scopes c) (caller : Caller) :
    ∃ dids t, FusePosix.rucioListDids io e.text c.text caller s = .ok (dids, t) ∧
      inventory.Knows servers serverNames t ∧
      List.Forall₂ (inventory.Describes c e) (inventory.dids c e) dids := by
  obtain ⟨⟨dids, t⟩, hrun⟩ := @Knows.exists_listDids _ _ _ _ caller _ _ _ _ h hio hparams he
  exact ⟨dids, t, hrun, h.rucioListDids hio hparams he hrun⟩

/-- and those of a container. -/
theorem Knows.listContainerDids (h : inventory.Knows servers serverNames s)
    (hio : inventory.Prints servers io) (hparams : getServerParams servers c.text = some params)
    {kind : DidKind} (hkind : inventory.kind c e n = some kind)
    (hdirectory : kind.isDirectory = true) (caller : Caller) :
    ∃ dids t, FusePosix.rucioListContainerDids io e.text n.text c.text caller s = .ok (dids, t) ∧
      inventory.Knows servers serverNames t ∧
      List.Forall₂ (inventory.Describes c e) (inventory.attached c e n) dids := by
  obtain ⟨⟨dids, t⟩, hrun⟩ :=
    @Knows.exists_listContainerDids _ _ _ _ caller _ _ _ _ _ h hio hparams _ hkind hdirectory
  exact ⟨dids, t, hrun, h.rucioListContainerDids hio hparams hkind hdirectory hrun⟩

variable {ds : List Component}

/-- A DID of the inventory is taken for what it is. -/
theorem Knows.isContainer (h : inventory.Knows servers serverNames s)
    (hio : inventory.Prints servers io) (hparams : getServerParams servers c.text = some params)
    (hlookable : inventory.Lookable (c :: e :: (ds ++ [n]))) {kind : DidKind}
    (hkind : inventory.kind c e n = some kind) (caller : Caller) :
    ∃ t, FusePosix.rucioIsContainer io (pathOf (c :: e :: (ds ++ [n]))) caller s =
        .ok (kind.isDirectory, t) ∧ inventory.Knows servers serverNames t := by
  obtain ⟨⟨value, t⟩, hrun⟩ :=
    @Knows.exists_isContainer _ _ _ _ caller _ _ _ _ _ h hio hparams _ hkind ds
  obtain ⟨ht, rfl⟩ := h.rucioIsContainer hio hparams hlookable hrun
  rw [hkind] at hrun
  exact ⟨t, hrun, ht⟩

/-- The size of a file of the inventory is told. -/
theorem Knows.getSize (h : inventory.Knows servers serverNames s)
    (hio : inventory.Prints servers io) (hparams : getServerParams servers c.text = some params)
    (hlookable : inventory.Lookable (c :: e :: (ds ++ [n]))) {bytes : ℕ}
    (hkind : inventory.kind c e n = some (.file bytes)) (caller : Caller) :
    ∃ t, FusePosix.rucioGetSize io (pathOf (c :: e :: (ds ++ [n]))) caller s = .ok (bytes, t) ∧
      inventory.Knows servers serverNames t := by
  obtain ⟨⟨size, t⟩, hrun⟩ :=
    @Knows.exists_getSize _ _ _ _ caller _ _ _ _ _ h hio hparams _ hkind ds
  obtain ⟨ht, hsize⟩ := h.rucioGetSize hio hparams hlookable (by rw [hkind]; rfl) hrun
  obtain rfl := hsize bytes hkind
  exact ⟨t, hrun, ht⟩

end Returns

/-! ### The tree -/

section Tree

variable {inventory : Inventory} {serverNames : List Str} {c e n : Component}
  {cs : List Component}

/-- A component is its text. -/
theorem mem_of_text_mem {shown : List Component} (h : n.text ∈ shown.map Component.text) :
    n ∈ shown := by
  obtain ⟨n', hn', htext⟩ := List.mem_map.1 h
  exact Component.eq_of_text htext ▸ hn'

/-- What a directory below a scope shows is a DID. -/
theorem isSome_of_mem_names (h : n.text ∈ inventory.names serverNames (c :: e :: cs)) :
    (inventory.kind c e n).isSome := by
  rcases hlast : cs.getLast? with - | d
  · simp only [names, hlast] at h
    exact inventory.isSome_of_dids c e n (mem_of_text_mem h)
  · simp only [names, hlast] at h
    split_ifs at h with hdirectory
    · exact inventory.isSome_of_attached c e d n (mem_of_text_mem h)
    · exact absurd h List.not_mem_nil

/-- **What is below a scope is there**: the scope, and the DID at the path. -/
theorem Reachable.isSome (h : inventory.Reachable serverNames cs) : ∀ c e ds, cs = c :: e :: ds →
    e ∈ inventory.scopes c ∧ ∀ n ∈ ds.getLast?, (inventory.kind c e n).isSome := by
  -- by induction on the path: a scope comes from the listing of its server, and a DID from that of
  -- the directory above
  induction h with
  | root => exact fun c e ds hcs ↦ nomatch hcs
  | @entry cs n _ hplain hmem ih =>
    rintro c e ds hcs
    rcases cs with - | ⟨c', - | ⟨e', cs⟩⟩
    · exact nomatch (List.cons.inj hcs).2
    · obtain ⟨rfl, hrest⟩ := List.cons.inj hcs
      obtain ⟨rfl, rfl⟩ := List.cons.inj hrest
      exact ⟨mem_of_text_mem hmem, fun n hn ↦ nomatch hn⟩
    · obtain ⟨rfl, hrest⟩ := List.cons.inj hcs
      obtain ⟨rfl, rfl⟩ := List.cons.inj hrest
      refine ⟨(ih c' e' cs rfl).1, fun n' hn' ↦ ?_⟩
      obtain rfl : n = n' := by simpa using hn'
      exact isSome_of_mem_names hmem

/-- A path of the tree can be looked up: no two DIDs share a cache key. -/
theorem Reachable.lookable (h : inventory.Reachable serverNames cs) : inventory.Lookable cs := by
  intro c e ds d hcs
  obtain ⟨he, hlast⟩ := h.isSome c e (ds ++ [d]) hcs
  refine ⟨he, fun c' e' n hsome hkey ↦ ?_⟩
  -- the path ends in a DID, and the inventory has no other one under its key
  exact inventory.did_inj _ _ _ _ _ _ hsome (hlast d List.getLast?_concat) hkey

/-- The callbacks do not skip a path of the tree. -/
theorem Reachable.not_skipped (h : inventory.Reachable serverNames cs) :
    isHidden (pathOf cs) = .ok false ∧ isMacSpecific (pathOf cs) = .ok false := by
  cases h with
  | root => exact ⟨by decide, by decide⟩
  | @entry cs n _ hplain hmem =>
    rw [pathOf_concat, isHidden_mkPath, isMacSpecific_mkPath]
    obtain ⟨hdot, hhead, hdcim⟩ := hplain
    rw [beq_eq_false_iff_ne.2 hdot, beq_eq_false_iff_ne.2 hhead, beq_eq_false_iff_ne.2 hdcim]
    exact ⟨rfl, rfl⟩

end Tree

/-! ### What is shown -/

section Shown

variable {inventory : Inventory} {servers : ServerMap} {serverNames : List Str} {io : Io}
  {caller : Caller} {s t : State} {st : Stat} {c e n : Component} {cs : List Component}

/-- The server of a path is loaded, if the path names one. -/
def Loaded (servers : ServerMap) (cs : List Component) : Prop :=
  ∀ c ∈ cs.head?, ∃ params, getServerParams servers c.text = some params

/-- A listing of a container counts what is no file. -/
theorem links_of_describes {shown : List Component} {dids : List RucioDid}
    (h : List.Forall₂ (inventory.Describes c e) shown dids) :
    2 + dids.length - countFiles io dids =
      2 + shown.countP fun n ↦ ((inventory.kind c e n).map DidKind.isDirectory).getD false := by
  -- every record is counted once: as a file, or as a directory
  have hcount : dids.length = countFiles io dids +
      shown.countP fun n ↦ ((inventory.kind c e n).map DidKind.isDirectory).getD false := by
    induction h with
    | nil => rfl
    | @cons n d shown dids hd _ ih =>
      obtain ⟨kind, hkind, htype, -⟩ := hd.kind
      have hone : (d.type.elim (decide (io.garbage = 0)) fun type ↦ decide (type = .rucioFile)) =
          !kind.isDirectory := by
        rw [htype, DidKind.isDirectory, decide_not, Bool.not_not]
        rfl
      rw [countFiles, List.countP_cons, List.countP_cons, ← countFiles, List.length_cons, ih, hone,
        hkind, Option.map_some, Option.getD_some]
      rcases kind.isDirectory
      · simp
        omega
      · simp
        omega
  omega

/-- What is no file is shown as a directory, with its links, -/
theorem attributes_of_directory (hkind : ∀ size, inventory.kindAt cs ≠ some (.file size)) :
    inventory.attributes serverNames io st cs = { st.stamped io with
      mode := directoryMode, nlink := inventory.links serverNames cs } := by
  rcases hat : inventory.kindAt cs with - | kind
  · rw [attributes, hat]
  · cases kind with
    | file size => exact absurd hat (hkind size)
    | container => rw [attributes, hat]
    | dataset => rw [attributes, hat]

/-- and with the names in it. -/
theorem listing_of_directory (hkind : ∀ size, inventory.kindAt cs ≠ some (.file size)) :
    inventory.listing serverNames cs = finalizeFiller (inventory.names serverNames cs) := by
  rcases hat : inventory.kindAt cs with - | kind
  · rw [listing, hat]
  · cases kind with
    | file size => exact absurd hat (hkind size)
    | container => rw [listing, hat]
    | dataset => rw [listing, hat]

/-- Below a scope, the last name of a path decides what is there. -/
theorem kindAt_deep (c e n : Component) (cs : List Component) :
    inventory.kindAt (c :: e :: (cs ++ [n])) = inventory.kind c e n := by
  rw [kindAt, List.getLast?_concat, Option.bind_some]

/-- What is taken for a directory is one. -/
theorem exists_directory (h : ((inventory.kind c e n).map DidKind.isDirectory).getD false = true) :
    ∃ kind, inventory.kind c e n = some kind ∧ kind.isDirectory = true := by
  rcases hkind : inventory.kind c e n with - | kind
  · rw [hkind] at h
    exact absurd h (by decide)
  · rw [hkind] at h
    exact ⟨kind, rfl, h⟩

/-- A directory is not a file of any size. -/
theorem kindAt_ne_file {kind : DidKind} (hkind : inventory.kind c e n = some kind)
    (hdirectory : kind.isDirectory = true) (size : ℕ) :
    inventory.kindAt (c :: e :: (cs ++ [n])) ≠ some (.file size) := by
  rw [kindAt_deep, hkind]
  rintro ⟨rfl⟩
  exact Bool.false_ne_true hdirectory

/-- The links of a directory below a scope. -/
theorem links_deep (c e n : Component) (cs : List Component) :
    inventory.links serverNames (c :: e :: (cs ++ [n])) =
      2 + (inventory.attached c e n).countP fun n ↦
        ((inventory.kind c e n).map DidKind.isDirectory).getD false := by
  rw [links, List.getLast?_concat]

/-- What is in a directory below a scope. -/
theorem names_deep {kind : DidKind} (hkind : inventory.kind c e n = some kind)
    (hdirectory : kind.isDirectory = true) :
    inventory.names serverNames (c :: e :: (cs ++ [n])) =
      (inventory.attached c e n).map Component.text := by
  rw [names, List.getLast?_concat]
  simp only [hkind, Option.map_some, Option.getD_some, hdirectory, if_true]

/-- The path of no component is the root, and no other. -/
theorem eq_nil_of_isRootPath (h : isRootPath (pathOf cs) = true) : cs = [] := by
  rcases cs with - | ⟨c, cs⟩
  · rfl
  · exact absurd ((isRootPath_mkPath (List.cons_ne_nil c cs) false).symm.trans h)
      Bool.false_ne_true

/-- The server of the parameters is there. -/
theorem Knows.serverExists (h : inventory.Knows servers serverNames s)
    (hparams : getServerParams servers c.text = some params) :
    FusePosix.serverExists s.servers c.text = true := by
  obtain ⟨srv, hfind, -⟩ :=
    Option.map_eq_some_iff.1 ((h.settings.getServerParams c.text).trans hparams)
  rw [FusePosix.serverExists, Table.contains, hfind]
  rfl

/-! #### Lookups -/

/-- A lookup learns nothing but what the servers have, whatever path it is of. -/
theorem Knows.of_getattrBody (h : inventory.Knows servers serverNames s)
    (hio : inventory.Prints servers io) (hshort : cs.length < 2 ^ 15) (hloaded : Loaded servers cs)
    (hlookable : inventory.Lookable cs) {result : ℤ × Stat}
    (hrun : getattrBody io (pathOf cs) caller st s = .ok (result, t)) :
    inventory.Knows servers serverNames t := by
  -- the root, a server, a scope, and what is below: each depth calls its own functions of the
  -- client
  rcases cs with - | ⟨c, - | ⟨e, cs⟩⟩
  · exact (Prod.mk.inj (Except.ok.inj hrun)).2 ▸ h
  · obtain ⟨params, hparams⟩ := hloaded c rfl
    rw [getattrBody_server, h.serverExists hparams] at hrun
    obtain ⟨⟨scopes, s₁⟩, hscopes, hrun⟩ := bind_eq_ok.1 hrun
    exact (Prod.mk.inj (Except.ok.inj hrun)).2 ▸ (h.rucioListScopes hio hparams hscopes).1
  obtain ⟨params, hparams⟩ := hloaded c rfl
  rcases cs.eq_nil_or_concat' with rfl | ⟨ds, d, rfl⟩
  · rw [getattrBody_scope] at hrun
    obtain ⟨⟨found, s₁⟩, hfound, hrun⟩ := bind_eq_ok.1 hrun
    obtain ⟨⟨scopes, s₁'⟩, hscopes, hret⟩ := bind_eq_ok.1 hfound
    obtain ⟨rfl, rfl⟩ := Prod.mk.inj (Except.ok.inj hret)
    obtain ⟨h₁, rfl⟩ := h.rucioListScopes hio hparams hscopes
    simp only at hrun
    split_ifs at hrun with hmem
    · exact (Prod.mk.inj (Except.ok.inj hrun)).2 ▸ h₁
    -- only the DIDs of a scope that is there are asked for
    · obtain ⟨⟨dids, s₂⟩, hdids, hrun⟩ := bind_eq_ok.1 hrun
      have he : e ∈ inventory.scopes c := mem_of_text_mem (by simpa using hmem)
      exact (Prod.mk.inj (Except.ok.inj hrun)).2 ▸ (h₁.rucioListDids hio hparams he hdids).1
  · rw [getattrBody_deep hshort] at hrun
    obtain ⟨⟨value, s₁⟩, hcontainer, hrun⟩ := bind_eq_ok.1 hrun
    obtain ⟨h₁, hvalue⟩ := h.rucioIsContainer hio hparams hlookable hcontainer
    rcases value
    · obtain ⟨⟨size, s₂⟩, hsize, hrun⟩ := bind_eq_ok.1 hrun
      exact (Prod.mk.inj (Except.ok.inj hrun)).2 ▸
        (h₁.rucioGetSize hio hparams hlookable hvalue.symm hsize).1
    -- what has been found a container is one, so its listing is printed
    · obtain ⟨kind, hkind, hdirectory⟩ := exists_directory hvalue.symm
      obtain ⟨⟨dids, s₂⟩, hdids, hrun⟩ := bind_eq_ok.1 hrun
      exact (Prod.mk.inj (Except.ok.inj hrun)).2 ▸
        (h₁.rucioListContainerDids hio hparams hkind hdirectory hdids).1

/-- A server that is loaded is found. -/
theorem Knows.getattr_server (h : inventory.Knows servers serverNames s)
    (hio : inventory.Prints servers io) (hparams : getServerParams servers c.text = some params) :
    ∃ t, getattrBody io (pathOf [c]) caller st s =
      .ok ((0, inventory.attributes serverNames io st [c]), t) := by
  obtain ⟨t, hscopes, -⟩ := h.listScopes hio hparams caller
  refine ⟨t, ?_⟩
  rw [getattrBody_server, h.serverExists hparams, hscopes,
    attributes_of_directory fun _ ↦ by simp [kindAt], links, ok_bind, List.length_map]
  rfl

/-- A scope of it is found. -/
theorem Knows.getattr_scope (h : inventory.Knows servers serverNames s)
    (hio : inventory.Prints servers io) (hparams : getServerParams servers c.text = some params)
    (he : e ∈ inventory.scopes c) :
    ∃ t, getattrBody io (pathOf [c, e]) caller st s =
      .ok ((0, inventory.attributes serverNames io st [c, e]), t) := by
  obtain ⟨s₁, hscopes, h₁⟩ := h.listScopes hio hparams caller
  obtain ⟨dids, t, hdids, -, hall⟩ := h₁.listDids hio hparams he caller
  have hmem : ((inventory.scopes c).map Component.text).contains e.text = true :=
    List.elem_eq_true_of_mem (List.mem_map_of_mem he)
  -- the scope is looked up in the list of its server
  have hfound : scopeExists io c.text e.text caller s = .ok (true, s₁) := by
    rw [scopeExists, hscopes, ok_bind]
    exact congrArg (fun found ↦ Except.ok (found, s₁)) hmem
  refine ⟨t, ?_⟩
  rw [getattrBody_scope, hfound, ok_bind, hdids,
    attributes_of_directory fun _ ↦ by simp [kindAt], links, hall.length_eq]
  rfl

/-- A DID of it is found, as the directory or the file it is. -/
theorem Knows.getattr_deep (h : inventory.Knows servers serverNames s)
    (hio : inventory.Prints servers io) (hparams : getServerParams servers c.text = some params)
    {ds : List Component} (hshort : (c :: e :: (ds ++ [n])).length < 2 ^ 15)
    (hlookable : inventory.Lookable (c :: e :: (ds ++ [n]))) {kind : DidKind}
    (hkind : inventory.kind c e n = some kind) :
    ∃ t, getattrBody io (pathOf (c :: e :: (ds ++ [n]))) caller st s =
      .ok ((0, inventory.attributes serverNames io st (c :: e :: (ds ++ [n]))), t) := by
  obtain ⟨s₁, hcontainer, h₁⟩ := h.isContainer hio hparams hlookable hkind caller
  -- a file is asked for its size, a directory for what is in it
  rcases hdirectory : kind.isDirectory
  · obtain ⟨bytes, rfl⟩ := isDirectory_eq_false_iff.1 hdirectory
    obtain ⟨t, hsize, -⟩ := h₁.getSize hio hparams hlookable hkind caller
    refine ⟨t, ?_⟩
    rw [getattrBody_deep hshort, hcontainer, ok_bind, hdirectory, attributes, kindAt_deep, hkind]
    simp only [Bool.false_eq_true, if_false, hsize, ok_bind]
  · obtain ⟨dids, t, hdids, -, hall⟩ := h₁.listContainerDids hio hparams hkind hdirectory caller
    refine ⟨t, ?_⟩
    rw [getattrBody_deep hshort, hcontainer, ok_bind, hdirectory,
      attributes_of_directory (kindAt_ne_file hkind hdirectory), links_deep,
      ← @links_of_describes _ io _ _ _ _ hall]
    simp only [if_true, hdids, ok_bind]

/-- **A lookup finds what the inventory has**, at every path of the tree. -/
theorem Knows.getattrBody (h : inventory.Knows servers serverNames s)
    (hio : inventory.Prints servers io) (hshort : cs.length < 2 ^ 15) (hloaded : Loaded servers cs)
    (hreach : inventory.Reachable serverNames cs) :
    ∃ t, FusePosix.getattrBody io (pathOf cs) caller st s =
      .ok ((0, inventory.attributes serverNames io st cs), t) := by
  rcases cs with - | ⟨c, - | ⟨e, cs⟩⟩
  · refine ⟨s, ?_⟩
    rw [attributes_of_directory fun _ ↦ by simp [kindAt], links, ← h.serverNames]
    rfl
  · obtain ⟨params, hparams⟩ := hloaded c rfl
    exact h.getattr_server hio hparams
  obtain ⟨params, hparams⟩ := hloaded c rfl
  obtain ⟨he, hlast⟩ := hreach.isSome c e cs rfl
  rcases cs.eq_nil_or_concat' with rfl | ⟨ds, d, rfl⟩
  · exact h.getattr_scope hio hparams he
  · obtain ⟨kind, hkind⟩ := Option.isSome_iff_exists.1 (hlast d List.getLast?_concat)
    exact h.getattr_deep hio hparams hshort hreach.lookable hkind

/-! #### Directories -/

/-- A listing learns nothing but what the servers have, whatever path it is of. -/
theorem Knows.of_readdirBody (h : inventory.Knows servers serverNames s)
    (hio : inventory.Prints servers io) (hshort : cs.length < 2 ^ 15) (hloaded : Loaded servers cs)
    (hlookable : inventory.Lookable cs) (hscope : ∀ c e, cs = [c, e] → e ∈ inventory.scopes c)
    {listed : ℤ × List Str} (hrun : readdirBody io (pathOf cs) caller s = .ok (listed, t)) :
    inventory.Knows servers serverNames t := by
  obtain ⟨hidden, hhidden, hskipped⟩ := bind_eq_ok.1 hrun
  -- a hidden path is not listed, and nothing is learnt
  rcases hidden
  case true => exact (Prod.mk.inj (Except.ok.inj hskipped)).2 ▸ h
  rcases cs with - | ⟨c, - | ⟨e, cs⟩⟩
  · exact (Prod.mk.inj (Except.ok.inj hskipped)).2 ▸ h
  · obtain ⟨params, hparams⟩ := hloaded c rfl
    rw [readdirBody_server hhidden] at hrun
    obtain ⟨⟨scopes, s₁⟩, hscopes, hrun⟩ := bind_eq_ok.1 hrun
    exact (Prod.mk.inj (Except.ok.inj hrun)).2 ▸ (h.rucioListScopes hio hparams hscopes).1
  obtain ⟨params, hparams⟩ := hloaded c rfl
  rcases cs.eq_nil_or_concat' with rfl | ⟨ds, d, rfl⟩
  · rw [readdirBody_scope hhidden] at hrun
    obtain ⟨⟨dids, s₁⟩, hdids, hrun⟩ := bind_eq_ok.1 hrun
    exact (Prod.mk.inj (Except.ok.inj hrun)).2 ▸
      (h.rucioListDids hio hparams (hscope c e rfl) hdids).1
  · rw [readdirBody_deep hshort hhidden] at hrun
    obtain ⟨⟨value, s₁⟩, hcontainer, hrun⟩ := bind_eq_ok.1 hrun
    obtain ⟨h₁, hvalue⟩ := h.rucioIsContainer hio hparams hlookable hcontainer
    rcases value
    · exact (Prod.mk.inj (Except.ok.inj hrun)).2 ▸ h₁
    · obtain ⟨kind, hkind, hdirectory⟩ := exists_directory hvalue.symm
      obtain ⟨⟨dids, s₂⟩, hdids, hrun⟩ := bind_eq_ok.1 hrun
      exact (Prod.mk.inj (Except.ok.inj hrun)).2 ▸
        (h₁.rucioListContainerDids hio hparams hkind hdirectory hdids).1

/-- Below a scope, a directory is listed and of a file nothing is shown. -/
theorem Knows.readdir_deep (h : inventory.Knows servers serverNames s)
    (hio : inventory.Prints servers io) (hparams : getServerParams servers c.text = some params)
    {ds : List Component} (hshort : (c :: e :: (ds ++ [n])).length < 2 ^ 15)
    (hhidden : isHidden (pathOf (c :: e :: (ds ++ [n]))) = .ok false)
    (hlookable : inventory.Lookable (c :: e :: (ds ++ [n]))) {kind : DidKind}
    (hkind : inventory.kind c e n = some kind) :
    ∃ t, readdirBody io (pathOf (c :: e :: (ds ++ [n]))) caller s =
      .ok ((0, inventory.listing serverNames (c :: e :: (ds ++ [n]))), t) := by
  obtain ⟨s₁, hcontainer, h₁⟩ := h.isContainer hio hparams hlookable hkind caller
  rcases hdirectory : kind.isDirectory
  · obtain ⟨bytes, rfl⟩ := isDirectory_eq_false_iff.1 hdirectory
    refine ⟨s₁, ?_⟩
    rw [readdirBody_deep hshort hhidden, hcontainer, ok_bind, hdirectory, listing, kindAt_deep,
      hkind]
    rfl
  · obtain ⟨dids, t, hdids, -, hall⟩ := h₁.listContainerDids hio hparams hkind hdirectory caller
    refine ⟨t, ?_⟩
    rw [readdirBody_deep hshort hhidden, hcontainer, ok_bind, hdirectory,
      listing_of_directory (kindAt_ne_file hkind hdirectory), names_deep hkind hdirectory]
    simp only [if_true, hdids, ok_bind, map_name hall]

/-- **A directory shows what the inventory has in it**, at every path of the tree. -/
theorem Knows.readdirBody (h : inventory.Knows servers serverNames s)
    (hio : inventory.Prints servers io) (hshort : cs.length < 2 ^ 15) (hloaded : Loaded servers cs)
    (hreach : inventory.Reachable serverNames cs) :
    ∃ t, FusePosix.readdirBody io (pathOf cs) caller s =
      .ok ((0, inventory.listing serverNames cs), t) := by
  have hhidden := hreach.not_skipped.1
  rcases cs with - | ⟨c, - | ⟨e, cs⟩⟩
  · refine ⟨s, ?_⟩
    rw [listing_of_directory fun _ ↦ by simp [kindAt], names, ← h.serverNames,
      FusePosix.readdirBody, hhidden]
    rfl
  · obtain ⟨params, hparams⟩ := hloaded c rfl
    obtain ⟨t, hscopes, -⟩ := h.listScopes hio hparams caller
    refine ⟨t, ?_⟩
    rw [readdirBody_server hhidden, hscopes, listing_of_directory fun _ ↦ by simp [kindAt], names]
    rfl
  obtain ⟨params, hparams⟩ := hloaded c rfl
  obtain ⟨he, hlast⟩ := hreach.isSome c e cs rfl
  rcases cs.eq_nil_or_concat' with rfl | ⟨ds, d, rfl⟩
  · obtain ⟨dids, t, hdids, -, hall⟩ := h.listDids hio hparams he caller
    refine ⟨t, ?_⟩
    rw [readdirBody_scope hhidden, hdids, listing_of_directory fun _ ↦ by simp [kindAt], ok_bind,
      map_name hall]
    rfl
  · obtain ⟨kind, hkind⟩ := Option.isSome_iff_exists.1 (hlast d List.getLast?_concat)
    exact h.readdir_deep hio hparams hshort hhidden hreach.lookable hkind

/-! ### Callbacks -/

/-- The gate learns nothing about data. -/
theorem Knows.authGate (h : inventory.Knows servers serverNames s) {path : Str}
    {authenticated : Bool} (hgate : FusePosix.authGate io path caller s = .ok (authenticated, t)) :
    inventory.Knows servers serverNames t :=
  h.quiet (quiet_authGate hgate) (serverNames_authGate hgate)

/-- Who is let through the gate names a server that is loaded, or none. -/
theorem Knows.loaded (h : inventory.Knows servers serverNames s)
    (hadmitted : Admitted io (pathOf cs) caller s) : Loaded servers cs := by
  intro c hc
  obtain ⟨ds, rfl⟩ := List.head?_eq_some_iff.1 hc
  rcases hadmitted with hroot | ⟨srv, hfind, -⟩
  · exact absurd (eq_nil_of_isRootPath hroot) (List.cons_ne_nil c ds)
  · have hserver : extractServerName (pathOf (c :: ds)) = c.text :=
      extractServerName_mkPath c ds false
    rw [hserver] at hfind
    exact ⟨srv.rucioConnParams,
      (h.settings.getServerParams c.text).symm.trans (getServerParams_of_find hfind)⟩

variable {m m' : Mount}

/-- A whole lookup learns nothing but what the servers have. -/
theorem Knows.of_rucioGetattr (h : inventory.Knows servers serverNames m.rest)
    (hio : inventory.Prints servers io) (hshort : cs.length < 2 ^ 15)
    (hlookable : inventory.Lookable cs) {result : ℤ × Stat}
    (hrun : FusePosix.rucioGetattr io (pathOf cs) caller st m = .ok (result, m')) :
    inventory.Knows servers serverNames m'.rest := by
  obtain ⟨hidden, -, hrun⟩ := bind_eq_ok.1 hrun
  split_ifs at hrun
  · exact (Prod.mk.inj (Except.ok.inj hrun)).2 ▸ h
  obtain ⟨mac, -, hrun⟩ := bind_eq_ok.1 hrun
  split_ifs at hrun
  · exact (Prod.mk.inj (Except.ok.inj hrun)).2 ▸ h
  obtain ⟨⟨authenticated, m₁⟩, hpassed, hrun⟩ := bind_eq_ok.1 hrun
  obtain ⟨s₁, hgate, rfl⟩ := onRest_eq_ok hpassed
  rcases authenticated
  · exact (Prod.mk.inj (Except.ok.inj hrun)).2 ▸ h.authGate hgate
  · obtain ⟨t, hbody, rfl⟩ := onRest_eq_ok hrun
    have hloaded := h.loaded ((admitted_of_authGate hgate).1 rfl)
    exact (h.authGate hgate).of_getattrBody hio hshort hloaded hlookable hbody

/-- So does a whole listing. -/
theorem Knows.of_rucioReaddir (h : inventory.Knows servers serverNames m.rest)
    (hio : inventory.Prints servers io) (hshort : cs.length < 2 ^ 15)
    (hlookable : inventory.Lookable cs) (hscope : ∀ c e, cs = [c, e] → e ∈ inventory.scopes c)
    {listed : ℤ × List Str}
    (hrun : FusePosix.rucioReaddir io (pathOf cs) caller m = .ok (listed, m')) :
    inventory.Knows servers serverNames m'.rest := by
  obtain ⟨⟨authenticated, m₁⟩, hpassed, hrun⟩ := bind_eq_ok.1 hrun
  obtain ⟨s₁, hgate, rfl⟩ := onRest_eq_ok hpassed
  rcases authenticated
  · exact (Prod.mk.inj (Except.ok.inj hrun)).2 ▸ h.authGate hgate
  · obtain ⟨t, hbody, rfl⟩ := onRest_eq_ok hrun
    have hloaded := h.loaded ((admitted_of_authGate hgate).1 rfl)
    exact (h.authGate hgate).of_readdirBody hio hshort hloaded hlookable hscope hbody

/-- **A lookup shows what the servers have**, to those who are let through the gate. -/
theorem Knows.rucioGetattr (h : inventory.Knows servers serverNames m.rest)
    (hio : inventory.Prints servers io) (hshort : cs.length < 2 ^ 15)
    (hreach : inventory.Reachable serverNames cs) :
    (Admitted io (pathOf cs) caller m.rest → ∃ m',
      FusePosix.rucioGetattr io (pathOf cs) caller st m =
        .ok ((0, inventory.attributes serverNames io st cs), m')) ∧
    (¬Admitted io (pathOf cs) caller m.rest → ∃ m',
      FusePosix.rucioGetattr io (pathOf cs) caller st m = .ok ((-eACCES, st), m')) := by
  obtain ⟨hhidden, hmac⟩ := hreach.not_skipped
  obtain ⟨admitted, s₁, hgate, hiff⟩ := authGate_eq_ok io (pathOf cs) caller m.rest
  have hgate' := @onRest_of_ok _ (FusePosix.authGate io (pathOf cs) caller) m _ _ hgate
  constructor
  · intro hadmitted
    obtain rfl := hiff.2 hadmitted
    have h₁ := h.authGate hgate
    have hloaded := h.loaded hadmitted
    obtain ⟨t, hbody⟩ :=
      @Knows.getattrBody _ _ _ _ caller _ st _ h₁ hio hshort hloaded hreach
    have hbody' := @onRest_of_ok _ (FusePosix.getattrBody io (pathOf cs) caller st)
      { m with rest := s₁ } _ _ hbody
    refine ⟨{ m with rest := t }, ?_⟩
    rw [FusePosix.rucioGetattr, hhidden, ok_bind, if_neg Bool.false_ne_true, hmac, ok_bind,
      if_neg Bool.false_ne_true, hgate', ok_bind]
    exact hbody'
  -- somebody who is refused sees nothing of the tree
  · intro hrefused
    obtain rfl : admitted = false := by simpa using mt hiff.1 hrefused
    refine ⟨{ m with rest := s₁ }, ?_⟩
    rw [FusePosix.rucioGetattr, hhidden, ok_bind, if_neg Bool.false_ne_true, hmac, ok_bind,
      if_neg Bool.false_ne_true, hgate', ok_bind]
    rfl

/-- **A directory shows what the servers have**, to those who are let through the gate. -/
theorem Knows.rucioReaddir (h : inventory.Knows servers serverNames m.rest)
    (hio : inventory.Prints servers io) (hshort : cs.length < 2 ^ 15)
    (hreach : inventory.Reachable serverNames cs) :
    (Admitted io (pathOf cs) caller m.rest → ∃ m',
      FusePosix.rucioReaddir io (pathOf cs) caller m =
        .ok ((0, inventory.listing serverNames cs), m')) ∧
    (¬Admitted io (pathOf cs) caller m.rest → ∃ m',
      FusePosix.rucioReaddir io (pathOf cs) caller m = .ok ((-eACCES, []), m')) := by
  obtain ⟨admitted, s₁, hgate, hiff⟩ := authGate_eq_ok io (pathOf cs) caller m.rest
  have hgate' := @onRest_of_ok _ (FusePosix.authGate io (pathOf cs) caller) m _ _ hgate
  constructor
  · intro hadmitted
    obtain rfl := hiff.2 hadmitted
    have h₁ := h.authGate hgate
    have hloaded := h.loaded hadmitted
    obtain ⟨t, hbody⟩ := @Knows.readdirBody _ _ _ _ caller _ _ h₁ hio hshort hloaded hreach
    have hbody' := @onRest_of_ok _ (FusePosix.readdirBody io (pathOf cs) caller)
      { m with rest := s₁ } _ _ hbody
    refine ⟨{ m with rest := t }, ?_⟩
    rw [FusePosix.rucioReaddir, hgate', ok_bind]
    exact hbody'
  · intro hrefused
    obtain rfl : admitted = false := by simpa using mt hiff.1 hrefused
    refine ⟨{ m with rest := s₁ }, ?_⟩
    rw [FusePosix.rucioReaddir, hgate', ok_bind]
    rfl

/-! ### Runs -/

/-- What may happen to a mount: its users look up, list and read paths of fewer than 2¹⁵ components
that can be looked up, in worlds that print the inventory. The contents of scopes are listed only of
scopes that are there. The other threads may do anything. -/
def Admissible (inventory : Inventory) (servers : ServerMap) : MountAction → Prop
  | .background (.getattr io path _ _) => inventory.Prints servers io ∧
      ∃ cs, path = pathOf cs ∧ cs.length < 2 ^ 15 ∧ inventory.Lookable cs
  | .background (.readdir io path _) => inventory.Prints servers io ∧
      ∃ cs, path = pathOf cs ∧ cs.length < 2 ^ 15 ∧ inventory.Lookable cs ∧
        ∀ c e, cs = [c, e] → e ∈ inventory.scopes c
  | .background (.work _) | .background (.loginEnds _ _) => True
  | .read call => inventory.Prints servers call.io ∧
      ∃ cs, call.path = pathOf cs ∧ cs.length < 2 ^ 15 ∧ inventory.Lookable cs

/-- Nothing is known at the start. -/
theorem knows_start (inventory : Inventory) (servers : ServerMap) (serverNames : List Str) :
    inventory.Knows servers serverNames (State.start servers serverNames) := by
  refine ⟨sameSettings_refl _, rfl, rfl, fun c entry h ↦ ?_, fun c e _ entry h ↦ ?_,
    fun c e d _ entry h ↦ ?_, fun key found h ↦ ?_, fun c e n size _ found h ↦ ?_⟩
  all_goals exact nomatch (show none = some _ from h)

/-- The checks in front of a read learn nothing but what the servers have. What they let through is
no directory. -/
theorem Knows.readChecks (h : inventory.Knows servers serverNames s)
    (hio : inventory.Prints servers io) (hshort : cs.length < 2 ^ 15)
    (hlookable : inventory.Lookable cs) {checked : Checked}
    (hrun : FusePosix.readChecks io (pathOf cs) caller s = .ok (checked, t)) :
    inventory.Knows servers serverNames t ∧ ∀ wanted, checked = .file wanted →
      wanted.path = pathOf cs ∧ Loaded servers cs ∧ ∃ c e ds d, cs = c :: e :: (ds ++ [d]) ∧
        ((inventory.kind c e d).map DidKind.isDirectory).getD false = false := by
  obtain ⟨⟨authenticated, s₁⟩, hgate, hrun⟩ := bind_eq_ok.1 hrun
  have h₁ := h.authGate hgate
  rcases authenticated
  · obtain ⟨rfl, rfl⟩ := Prod.mk.inj (Except.ok.inj hrun)
    exact ⟨h₁, fun wanted hwanted ↦ nomatch hwanted⟩
  have hloaded := h.loaded ((admitted_of_authGate hgate).1 rfl)
  obtain ⟨⟨isFile, s₂⟩, hfile, hrun⟩ := bind_eq_ok.1 hrun
  rcases cs with - | ⟨c, cs⟩
  · -- the root has no scope to be looked up in
    have hroot : isFilePath io (pathOf []) caller s₁ = .error .outOfRange := rfl
    exact nomatch hroot.symm.trans hfile
  obtain ⟨params, hparams⟩ := hloaded c rfl
  -- servers and scopes are directories by their depth, and a read of them ends here
  obtain ⟨hone, htwo⟩ := isServerMountpoint_pathOf (List.cons_ne_nil c cs) hshort
  rw [isFilePath, hone, ok_bind] at hfile
  split_ifs at hfile with hdepth
  · obtain ⟨rfl, rfl⟩ := Prod.mk.inj (Except.ok.inj hfile)
    obtain ⟨rfl, rfl⟩ := Prod.mk.inj (Except.ok.inj hrun)
    exact ⟨h₁, fun wanted hwanted ↦ nomatch hwanted⟩
  rw [htwo, ok_bind] at hfile
  split_ifs at hfile with hdepth'
  · obtain ⟨rfl, rfl⟩ := Prod.mk.inj (Except.ok.inj hfile)
    obtain ⟨rfl, rfl⟩ := Prod.mk.inj (Except.ok.inj hrun)
    exact ⟨h₁, fun wanted hwanted ↦ nomatch hwanted⟩
  rcases cs with - | ⟨e, cs⟩
  · exact absurd rfl hdepth
  rcases cs.eq_nil_or_concat' with rfl | ⟨ds, d, rfl⟩
  · exact absurd rfl hdepth'
  -- below a scope the client is asked, and what it says is what the inventory has
  obtain ⟨⟨value, s₃⟩, hcontainer, hret⟩ := bind_eq_ok.1 hfile
  obtain ⟨rfl, rfl⟩ := Prod.mk.inj (Except.ok.inj hret)
  obtain ⟨h₃, rfl⟩ := h₁.rucioIsContainer hio hparams hlookable hcontainer
  simp only at hrun
  split_ifs at hrun with hno
  · obtain ⟨wanted, hwanted, hrun⟩ := bind_eq_ok.1 hrun
    obtain ⟨rfl, rfl⟩ := Prod.mk.inj (Except.ok.inj hrun)
    refine ⟨h₃, fun wanted' heq ↦ ?_⟩
    obtain rfl := Checked.file.inj heq
    exact ⟨(wantedOf_eq_ok hwanted).1, hloaded, c, e, ds, d, rfl, by simpa using hno⟩
  · obtain ⟨rfl, rfl⟩ := Prod.mk.inj (Except.ok.inj hrun)
    exact ⟨h₃, fun wanted hwanted ↦ nomatch hwanted⟩

/-- So does a read. -/
theorem Knows.read (h : inventory.Knows servers serverNames m.rest) {call : ReadCall}
    (hio : inventory.Prints servers call.io) (hpath : call.path = pathOf cs)
    (hshort : cs.length < 2 ^ 15) (hlookable : inventory.Lookable cs) {r : ℤ × Str}
    (hrun : call.run m = .ok (r, m')) : inventory.Knows servers serverNames m'.rest := by
  obtain ⟨⟨checked, m₁⟩, hchecks, hrun⟩ := bind_eq_ok.1 hrun
  obtain ⟨t, hrest, rfl⟩ := onRest_eq_ok hchecks
  rw [hpath] at hrest
  obtain ⟨ht, hfile⟩ := h.readChecks hio hshort hlookable hrest
  rcases checked with result | wanted
  · obtain ⟨-, rfl⟩ := Prod.mk.inj (Except.ok.inj hrun)
    exact ht
  obtain ⟨hwanted, hloaded, c, e, ds, d, rfl, hno⟩ := hfile wanted rfl
  simp only at hrun
  split_ifs at hrun with hcached hflag
  · obtain ⟨-, rfl⟩ := Prod.mk.inj (Except.ok.inj hrun)
    exact ht
  · obtain ⟨info, -, hrun⟩ := bind_eq_ok.1 hrun
    obtain ⟨-, rfl⟩ := Prod.mk.inj (Except.ok.inj hrun)
    exact ht
  -- only a file that has been downloaded is asked for its size again
  · obtain ⟨⟨fileSize, m₂⟩, hasked, hrun⟩ := bind_eq_ok.1 hrun
    obtain ⟨u, hsize, rfl⟩ := onRest_eq_ok hasked
    rw [hwanted] at hsize
    obtain ⟨params, hparams⟩ := hloaded c rfl
    obtain ⟨hu, -⟩ := ht.rucioGetSize hio hparams hlookable hno hsize
    simp only at hrun
    split_ifs at hrun with hoffset
    · obtain ⟨-, rfl⟩ := Prod.mk.inj (Except.ok.inj hrun)
      exact hu
    · obtain ⟨content, -, hrun⟩ := bind_eq_ok.1 hrun
      obtain ⟨-, rfl⟩ := Prod.mk.inj (Except.ok.inj hrun)
      exact hu

/-- The end of a login leaves the list of servers alone. -/
theorem serverNames_oidcLoginEnds {k : ℕ} (hrun : oidcLoginEnds io k s = .ok t) :
    t.serverNames = s.serverNames := by
  obtain ⟨login, -, hrun⟩ := bind_eq_ok.1 hrun
  simp only at hrun
  split_ifs at hrun with hempty
  · obtain rfl := Except.ok.inj hrun
    rfl
  · obtain ⟨info, rfl⟩ := exists_of_storeOidcToken hrun
    rfl

/-- **No step makes the caches wrong.** -/
theorem knows_step {a : MountAction} (h : inventory.Knows servers serverNames m.rest)
    (ha : inventory.Admissible servers a) (hstep : m.step a = some m') :
    inventory.Knows servers serverNames m'.rest := by
  -- three callbacks, the workers, which leave the client alone, and the ends of logins, which are
  -- quiet
  rcases a with call | (⟨io, path, caller, st⟩ | ⟨io, path, caller⟩ | w | ⟨io, k⟩)
  case read =>
    obtain ⟨⟨result, m₁⟩, hrun, rfl⟩ := map_toOption_eq_some hstep
    obtain ⟨hio, cs, hpath, hshort, hlookable⟩ := ha
    exact h.read hio hpath hshort hlookable hrun
  case getattr =>
    obtain ⟨⟨result, m₁⟩, hrun, rfl⟩ := map_toOption_eq_some hstep
    obtain ⟨hio, cs, rfl, hshort, hlookable⟩ := ha
    exact h.of_rucioGetattr hio hshort hlookable hrun
  case readdir =>
    obtain ⟨⟨result, m₁⟩, hrun, rfl⟩ := map_toOption_eq_some hstep
    obtain ⟨hio, cs, rfl, hshort, hlookable, hscope⟩ := ha
    exact h.of_rucioReaddir hio hshort hlookable hscope hrun
  case work =>
    obtain ⟨pipeline, -, rfl⟩ := Option.map_eq_some_iff.1 hstep
    exact h
  case loginEnds =>
    obtain ⟨rest, hrun, rfl⟩ := map_toOption_eq_some hstep
    exact h.quiet (quiet_oidcLoginEnds hrun) (serverNames_oidcLoginEnds hrun)

/-- So the caches are right at all times. -/
theorem knows_run {actions : List MountAction}
    (hactions : ∀ a ∈ actions, inventory.Admissible servers a)
    (hrun : exec Mount.step (Mount.start (State.start servers serverNames)) actions = some m) :
    inventory.Knows servers serverNames m.rest :=
  run_induction Mount.step (knows_start inventory servers serverNames)
    (fun _ _ _ _ h ha hstep ↦ knows_step h ha hstep) hactions hrun

/-- **The mount shows what the servers have.** Take any inventory, any servers with any tokens, and
any run of a mount in worlds that print the inventory, with any number of users and any order of
calls, downloads and logins. Behind it, a lookup of any path of the tree and a listing of it return,
and show exactly what the inventory has there, to every user who is let through the gate. Everybody
else is refused. What the world has to do for this is in `Prints`, what the run must not do in
`Admissible`. -/
theorem mount_shows_inventory {actions : List MountAction}
    (hactions : ∀ a ∈ actions, inventory.Admissible servers a)
    (hrun : exec Mount.step (Mount.start (State.start servers serverNames)) actions = some m)
    (hio : inventory.Prints servers io) (hreach : inventory.Reachable serverNames cs)
    (hshort : cs.length < 2 ^ 15) (caller : Caller) (st : Stat) :
    (Admitted io (pathOf cs) caller m.rest →
      (∃ m', FusePosix.rucioGetattr io (pathOf cs) caller st m =
        .ok ((0, inventory.attributes serverNames io st cs), m')) ∧
      ∃ m', FusePosix.rucioReaddir io (pathOf cs) caller m =
        .ok ((0, inventory.listing serverNames cs), m')) ∧
    (¬Admitted io (pathOf cs) caller m.rest →
      (∃ m', FusePosix.rucioGetattr io (pathOf cs) caller st m = .ok ((-eACCES, st), m')) ∧
      ∃ m', FusePosix.rucioReaddir io (pathOf cs) caller m = .ok ((-eACCES, []), m')) := by
  have hknows := knows_run hactions hrun
  obtain ⟨hlooked, hnotLooked⟩ :=
    @Knows.rucioGetattr _ _ _ _ caller st _ _ hknows hio hshort hreach
  obtain ⟨hlisted, hnotListed⟩ :=
    @Knows.rucioReaddir _ _ _ _ caller _ _ hknows hio hshort hreach
  exact ⟨fun hadmitted ↦ ⟨hlooked hadmitted, hlisted hadmitted⟩,
    fun hrefused ↦ ⟨hnotLooked hrefused, hnotListed hrefused⟩⟩

end Shown

/-! ### One file -/

/-- The server `s` has the scope `x`, which has the file `f` of twelve bytes. -/
def oneFile : Inventory where
  scopes c := if c = serverS then [scopeX] else []
  dids c e := if c = serverS ∧ e = scopeX then [fileF] else []
  attached _ _ _ := []
  kind c e n := if c = serverS ∧ e = scopeX ∧ n = fileF then some (.file 12) else none
  scopeName c e he := by
    split_ifs at he
    · obtain rfl := List.mem_singleton.1 he
      decide +kernel
    · exact absurd he List.not_mem_nil
  isSome_of_dids c e n hn := by
    split_ifs at hn with hx
    · obtain rfl := List.mem_singleton.1 hn
      rw [if_pos ⟨hx.1, hx.2, rfl⟩]
      rfl
    · exact absurd hn List.not_mem_nil
  isSome_of_attached _ _ _ _ hn := absurd hn List.not_mem_nil
  size_lt c e n size h := by
    split_ifs at h
    obtain rfl := DidKind.file.inj (Option.some.inj h)
    decide
  scope_inj c e c' e' he he' _ := by
    split_ifs at he he' with hc hc' <;> simp_all
  did_inj c e n c' e' n' h h' _ := by
    split_ifs at h h' with hx hx' <;> simp_all

/-- The address of the listing of the scope `x`. -/
def listingPlace : Str := ['h', '/', 'd', 'i', 'd', 's', '/', 'x', '/']

/-- What is printed at an address. -/
def oneFilePayload (url : Str) : List Str :=
  if url = listingPlace ∨ url = listingPlace ++ ['f'] then [sampleRecord.text]
  else if url = "h/scopes/".toList then ["[\"x\"]".toList]
  else [['x']]

/-- A world that prints it. -/
def oneFileIo : Io := { sampleIo with net := fun _ request ↦ ⟨0, oneFilePayload request.url⟩ }

/-- The record of the file says what it is. -/
theorem oneFile_says : oneFile.Says serverS scopeX fileF sampleRecord where
  name := by decide
  kind := by
    refine ⟨.file 12, rfl, by decide, fun size hsize ↦ ?_⟩
    obtain rfl := DidKind.file.inj hsize
    exact .decimal (by decide) (by decide)

/-- The record of the file is printed whole, which the lookups can bear. -/
theorem oneFile_printsDid :
    oneFile.PrintsDid serverS scopeX fileF (.file 12) [sampleRecord.text] := by
  have hpayload : [sampleRecord.text].flatten = joined didMarks [sampleRecord.text] false := by
    decide +kernel
  obtain ⟨f, hf⟩ : ∃ f, sampleRecord.SaysSize f 12 :=
    ⟨_, List.mem_of_getElem? (i := 2) rfl, rfl, by decide, rfl, rfl, rfl⟩
  refine ⟨sampleRecord, false, sampleRecord.text, [], oneFile_says, rfl, hpayload, ?_, ?_⟩
  · exact (says_iff_shows hpayload).1 (by decide +kernel)
  · intro size hsize
    obtain rfl := DidKind.file.inj hsize
    exact ⟨⟨f, hf⟩, ((sizeOfPayload_eq_iff hf (by decide) hpayload).1 (by decide +kernel)).2⟩

/-- There is one server only, -/
theorem eq_of_oneFile_params {c : Component} {params : ConnectionParameters}
    (h : getServerParams sampleHolder.servers c.text = some params) :
    c = serverS ∧ params.serverUrl = ['h'] := by
  rw [getServerParams, sampleHolder, Table.find_insert] at h
  split_ifs at h with hc
  · exact ⟨Component.eq_of_text hc, by rw [← Option.some.inj h]⟩
  · exact absurd h (Option.some_ne_none params).symm

/-- with one DID, -/
theorem eq_of_oneFile_kind {c e n : Component} {kind : DidKind}
    (h : oneFile.kind c e n = some kind) :
    c = serverS ∧ e = scopeX ∧ n = fileF ∧ kind = .file 12 := by
  simp only [oneFile] at h
  split_ifs at h with hx
  exact ⟨hx.1, hx.2.1, hx.2.2, (Option.some.inj h).symm⟩

/-- in one scope. -/
theorem eq_of_mem_oneFile_scopes {c e : Component} (h : e ∈ oneFile.scopes c) :
    c = serverS ∧ e = scopeX := by
  simp only [oneFile] at h
  split_ifs at h with hc
  · exact ⟨hc, List.mem_singleton.1 h⟩
  · exact absurd h List.not_mem_nil

/-- The place of a DID in the scope is that of the listing with the name behind it. -/
theorem didPlace_eq (n : Component) :
    cStr (['h'] ++ didResource scopeX.text n.text) = listingPlace ++ n.text := by
  have hsplit : ['h'] ++ didResource scopeX.text [] = listingPlace := by decide +kernel
  have hassoc : ∀ a p s m : Str, a ++ (p ++ s ++ ['/'] ++ m) = a ++ (p ++ s ++ ['/'] ++ []) ++ m :=
    fun a p s m ↦ by simp only [List.append_assoc, List.nil_append]
  have happend : ['h'] ++ didResource scopeX.text n.text =
      ['h'] ++ didResource scopeX.text [] ++ n.text := hassoc _ _ _ _
  rw [happend, hsplit]
  refine cStr_of_nul_notMem fun hmem ↦ ?_
  rcases List.mem_append.1 hmem with hplace | hname
  · exact absurd hplace (by decide)
  · exact n.nul_notMem hname

/-- No other name makes up the place of the file. -/
theorem oneFilePayload_of_ne {n : Component} (h : n ≠ fileF) :
    oneFilePayload (listingPlace ++ n.text) = [['x']] := by
  have hnot : ¬(listingPlace ++ n.text = listingPlace ∨
      listingPlace ++ n.text = listingPlace ++ ['f']) := by
    -- neither the place of the listing nor that of the file
    rintro (heq | heq)
    · exact n.ne_nil (List.append_right_eq_self.1 heq)
    · exact h (Component.eq_of_text (List.append_cancel_left heq))
  have hscopes : listingPlace ++ n.text ≠ "h/scopes/".toList := by
    -- the third character tells the two kinds of addresses apart
    intro heq
    have hthird := congrArg (fun url ↦ url.take 3) heq
    rw [List.take_append_of_le_length (by decide)] at hthird
    exact absurd hthird (by decide +kernel)
  rw [oneFilePayload, if_neg hnot, if_neg hscopes]

/-- **This world prints the inventory**: the lists of scopes and DIDs, the record of the file, and
of other names an answer without a record. -/
theorem oneFile_prints : oneFile.Prints sampleHolder.servers oneFileIo := by
  -- each place of the inventory has one URL, so what the server answers there is computed
  refine ⟨fun c params log request h hurl ↦ ?_, fun c e he params log request h hurl ↦ ?_,
    fun c e d kind hd hdirectory ↦ ?_, fun c e n kind hn params log request h hurl ↦ ?_,
    fun c e he n hn params log request h hurl ↦ ?_⟩
  · obtain ⟨rfl, hserver⟩ := eq_of_oneFile_params h
    rw [hserver] at hurl
    have hpayload : oneFilePayload request.url = ["[\"x\"]".toList] := by
      rw [hurl]
      decide +kernel
    refine ⟨rfl, false, ?_⟩
    show (oneFilePayload request.url).flatten = _ ∧ CutBetween _ _ (oneFilePayload request.url)
    rw [hpayload]
    exact ⟨by decide +kernel, by decide +kernel, Or.inr rfl⟩
  · obtain ⟨rfl, hserver⟩ := eq_of_oneFile_params h
    obtain ⟨-, rfl⟩ := eq_of_mem_oneFile_scopes he
    rw [hserver] at hurl
    refine ⟨rfl, [sampleRecord], false, .cons oneFile_says .nil, ?_⟩
    show (oneFilePayload request.url).flatten = _
    rw [hurl]
    decide +kernel
  · obtain ⟨-, -, -, rfl⟩ := eq_of_oneFile_kind hd
    exact absurd hdirectory (by decide)
  · obtain ⟨rfl, rfl, rfl, rfl⟩ := eq_of_oneFile_kind hn
    obtain ⟨-, hserver⟩ := eq_of_oneFile_params h
    rw [hserver, didPlace_eq] at hurl
    have hpayload : oneFilePayload request.url = [sampleRecord.text] := by
      rw [hurl]
      exact if_pos (Or.inr rfl)
    refine ⟨rfl, ?_⟩
    show oneFile.PrintsDid _ _ _ _ (oneFilePayload request.url)
    rw [hpayload]
    exact oneFile_printsDid
  · obtain ⟨rfl, hserver⟩ := eq_of_oneFile_params h
    obtain ⟨-, rfl⟩ := eq_of_mem_oneFile_scopes he
    have hother : n ≠ fileF := by
      rintro rfl
      exact nomatch (show some (DidKind.file 12) = none from hn)
    rw [hserver, didPlace_eq] at hurl
    have hpayload : oneFilePayload request.url = [['x']] := by
      rw [hurl, oneFilePayload_of_ne hother]
    refine ⟨rfl, ?_⟩
    show (∀ front ∈ (oneFilePayload request.url).head?, _) ∧
      sizeOfPayload (oneFilePayload request.url) = none
    rw [hpayload]
    exact ⟨by decide +kernel, by decide +kernel⟩

/-- The three names are none of those that the callbacks skip. -/
theorem plain_serverS : serverS.Plain := ⟨by decide, by decide, by decide⟩

theorem plain_scopeX : scopeX.Plain := ⟨by decide, by decide, by decide⟩

theorem plain_fileF : fileF.Plain := ⟨by decide, by decide, by decide⟩

/-- Somebody has listed the scope, and somebody else has been refused. Then the file is shown, with
its size. -/
theorem mount_shows_inventory_file : ∃ m m',
    exec Mount.step (Mount.start (State.start sampleHolder.servers [['s']])) [
      .background (.readdir oneFileIo (pathOf [serverS, scopeX]) sampleCaller),
      .background (.getattr oneFileIo (pathOf [serverS, scopeX]) { sampleCaller with uid := 9 } {})]
        = some m ∧
    FusePosix.rucioGetattr oneFileIo (pathOf [serverS, scopeX, fileF]) sampleCaller {} m =
      .ok ((0, { atime := 1000000, mtime := 1000000, mode := fileMode, nlink := 1, size := 12 }),
        m') := by
  have hrun : ((exec Mount.step (Mount.start (State.start sampleHolder.servers [['s']])) [
      .background (.readdir oneFileIo (pathOf [serverS, scopeX]) sampleCaller),
      .background (.getattr oneFileIo (pathOf [serverS, scopeX])
        { sampleCaller with uid := 9 } {})]).map
          fun m ↦ (rucioIsTokenValid oneFileIo ['s'] sampleCaller.uid m.rest).1) = some true := by
    decide +kernel
  obtain ⟨m, hm, hvalid⟩ := Option.map_eq_some_iff.1 hrun
  have hscope : oneFile.Reachable [['s']] [serverS, scopeX] :=
    .entry (.entry .root plain_serverS (by decide)) plain_scopeX (by decide)
  have hfile : oneFile.Reachable [['s']] [serverS, scopeX, fileF] :=
    .entry hscope plain_fileF (by decide)
  have hprints := oneFile_prints
  have hactions : ∀ a ∈ [
      MountAction.background (.readdir oneFileIo (pathOf [serverS, scopeX]) sampleCaller),
      .background (.getattr oneFileIo (pathOf [serverS, scopeX])
        { sampleCaller with uid := 9 } {})],
      oneFile.Admissible sampleHolder.servers a := by
    intro a ha
    rcases List.mem_pair.1 ha with rfl | rfl
    · exact ⟨hprints, _, rfl, by decide, hscope.lookable,
        fun c e hcs ↦ (hscope.isSome c e [] hcs).1⟩
    · exact ⟨hprints, _, rfl, by decide, hscope.lookable⟩
  obtain ⟨srv, hfind, -, htoken⟩ := exists_of_valid hvalid
  obtain ⟨⟨m', hshown⟩, -⟩ := (mount_shows_inventory hactions hm hprints hfile (by decide)
    sampleCaller {}).1 (Or.inr ⟨srv, hfind, Or.inl htoken⟩)
  exact ⟨m, m', hm, hshown⟩

end Inventory

end FusePosix
