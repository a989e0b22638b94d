import FusePosix.Fuse.Walk
import FusePosix.Rest.Direct
import FusePosix.Utils.Depth

/-!
# A container in itself

The smallest catalogue with a loop: one server, one scope, one container, which is attached to
itself. A walk of a mount with this server finds a directory for every number of repetitions of its
name (`directoryPaths_not_finite`).

As long as the path is short enough for the counter of `pathDepth`, this is what the callbacks do:
once the caches know the container (`Warm`), each of them is answered from there, and the caches
stay as they are. From `2 ^ 15` names on the calls are not defined (`pathDepth_of_letters`), and
going on as before is one of the ways they may end.

The server is a world of `FusePosix.Fuse.Walk`: whatever it is asked, its answers are those of the
catalogue (`tells_loop`). The addresses it answers at have to be told apart for that, for any scope
and any name that a caller may put into a path.

**Not claimed:** which loops make a walk endless in general. A condition under which it is finite is
in `FusePosix.Fuse.Walk`.
-/

namespace FusePosix

open Transition

/-! ### The server -/

/-- The record of the container `c` of the scope `x`. -/
def recordC : Str := "\x7b\"scope\": \"x\", \"type\": \"CONTAINER\", \"name\": \"c\"\x7d".toList

/-- The container. -/
def didC : RucioDid := ⟨['x'], some .rucioContainer, ['c'], [], none, 0⟩

/-- What the server answers. -/
def loopAnswer (url : Str) : CurlRet :=
  if url = holdersParams.serverUrl ++ "/scopes/".toList then ⟨0, ["[\"x\"]".toList]⟩
  else if url = holdersParams.serverUrl ++ (Query.dids ['s'] ['x']).resource ∨
      url = holdersParams.serverUrl ++ (Query.containerDids ['s'] ['x'] ['c']).resource ∨
      url = holdersParams.serverUrl ++ didResource ['x'] ['c'] then ⟨0, [recordC]⟩
  else ⟨1, []⟩

/-- The world with that server. -/
def loopIo : Io := { sampleIo with net := fun _ request ↦ loopAnswer request.url }

/-- The catalogue of that server: the container is the only DID, and it is attached to itself. -/
def selfAttached : Catalogue :=
  { nestedFile with
    shows := fun query name ↦ (query, name) ∈ [(.scopes ['s'], ['x']), (.dids ['s'] ['x'], ['c']),
      (.containerDids ['s'] ['x'] ['c'], ['c'])]
    finite_names := Catalogue.finite_names_of_list _ }

/-! The container is found at three addresses, which are told apart by what stands behind the
scope. -/

section Addresses

/-- The content of the scope is the container, and other scopes are not there. -/
theorem loopAnswer_scope (server : Str) (e : Component) :
    loopAnswer (cStr (holdersParams.serverUrl ++ (Query.dids server e.text).resource)) =
      if e.text = ['x'] then ⟨0, [recordC]⟩ else ⟨1, []⟩ := by
  obtain ⟨hsent, hscopes⟩ := scopeUrl_asSent server e
  obtain ⟨hne, hslash, -⟩ := containerEnd
  rw [loopAnswer, hsent, if_neg hscopes]
  refine if_congr ?_ rfl rfl
  -- a scope is no container and no record
  rw [or_iff_left]
  · exact scopeUrl_inj
  · refine not_or.2 ⟨(containerUrl_ne_scopeUrl hne hslash).symm, ?_⟩
    exact (recordUrl_ne_scopeUrl (by decide) (by decide)).symm

/-- The content of the container is the container. -/
theorem loopAnswer_container (server : Str) (e n : Component) :
    loopAnswer (cStr (holdersParams.serverUrl ++
      (Query.containerDids server e.text n.text).resource)) =
        if e.text = ['x'] ∧ n.text = ['c'] then ⟨0, [recordC]⟩ else ⟨1, []⟩ := by
  obtain ⟨hsent, hscopes⟩ := containerUrl_asSent server e n
  obtain ⟨hne, hslash, -, hname⟩ := containerEnd
  rw [loopAnswer, hsent, if_neg hscopes]
  refine if_congr ?_ rfl rfl
  rw [or_iff_right, or_iff_left]
  · show _ ++ ("/dids/".toList ++ e.text ++ ['/'] ++ n.text ++ "/dids".toList) =
      _ ++ ("/dids/".toList ++ ['x'] ++ ['/'] ++ ['c'] ++ "/dids".toList) ↔ _
    rw [List.append_assoc (_ ++ ['/']), List.append_assoc (_ ++ ['/']),
      recordUrl_inj e.slash_notMem (by decide), List.append_cancel_right_eq]
  · exact containerUrl_ne_recordUrl hne (by decide) hname
  · exact containerUrl_ne_scopeUrl hne hslash

/-- So is the record of the container. -/
theorem loopAnswer_record (e n : Component) :
    loopAnswer (cStr (holdersParams.serverUrl ++ didResource e.text n.text)) =
      if e.text = ['x'] ∧ n.text = ['c'] then ⟨0, [recordC]⟩ else ⟨1, []⟩ := by
  obtain ⟨hsent, hscopes⟩ := recordUrl_asSent e n
  rw [loopAnswer, hsent, if_neg hscopes]
  refine if_congr ?_ rfl rfl
  rw [or_iff_right, or_iff_right]
  · exact recordUrl_inj e.slash_notMem (by decide)
  · -- the name would have a slash
    show ¬ _ ++ ("/dids/".toList ++ e.text ++ ['/'] ++ n.text) =
      _ ++ ("/dids/".toList ++ ['x'] ++ ['/'] ++ ['c'] ++ "/dids".toList)
    rw [List.append_assoc (_ ++ ['/']) ['c'], recordUrl_inj e.slash_notMem (by decide)]
    rintro ⟨-, hn⟩
    exact absurd (by rw [hn]; decide +kernel) n.slash_notMem
  · exact recordUrl_ne_scopeUrl n.ne_nil n.slash_notMem

/-- A request that succeeds gets the record. -/
theorem of_ok_ite {p : Prop} [Decidable p]
    (h : (if p then (⟨0, [recordC]⟩ : CurlRet) else ⟨1, []⟩).ok = true) : p := by
  by_contra hp
  rw [if_neg hp] at h
  exact absurd h (by decide)

end Addresses

/-- What the parsers read off the answers. -/
theorem parse_loop :
    structurizeAll structurizeDid [] [recordC] [] = .ok ([], [didC]) ∧
      structurizeAll structurizeContainerDid [] [recordC] [] = .ok ([], [didC]) := by
  decide +kernel

/-- There is only one server. -/
theorem server_of_twoHolders {server : Str} {params : ConnectionParameters}
    (h : getServerParams twoHolders server = some params) :
    server = ['s'] ∧ params = holdersParams := by
  rw [getServerParams, twoHolders, Table.find_insert] at h
  split_ifs at h with hserver
  · exact ⟨hserver, (Option.some.inj h).symm⟩
  · cases h

/-- A listing of the container alone is in the catalogue, if the container is. -/
theorem told_didC {query : Query} (hshows : selfAttached.shows query ['c'])
    (hcontainer : selfAttached.container query.server query.scope ['c']) :
    (∀ name ∈ (Answer.dids [didC]).names, selfAttached.shows query name) ∧
      ∀ d ∈ (Answer.dids [didC]).listedDids, d.type = some .rucioFile ∨
        selfAttached.container query.server query.scope d.name := by
  refine ⟨fun name hname ↦ ?_, fun d hd ↦ Or.inr ?_⟩
  · rw [List.mem_singleton.1 hname]
    exact hshows
  · rw [List.mem_singleton.1 hd]
    exact hcontainer

/-- The scopes are those of the catalogue. -/
theorem told_scopes {c : Component} {parsed : Str × Answer} (hserver : c.text = ['s'])
    (hparse : (Query.scopes c.text).parseChunks []
      (loopAnswer (cStr (holdersParams.serverUrl ++ "/scopes/".toList))).payload = .ok parsed) :
    parsed.1 = [] ∧ (∀ name ∈ parsed.2.names, selfAttached.shows (.scopes c.text) name) ∧
      parsed.2.listedDids = [] := by
  have hnul : '\x00' ∉ holdersParams.serverUrl ++ "/scopes/".toList := fun hmem ↦
    (List.mem_append.1 hmem).elim nul_notMem_address address_parts.1.1
  have hanswer : loopAnswer (cStr (holdersParams.serverUrl ++ "/scopes/".toList)) =
      ⟨0, ["[\"x\"]".toList]⟩ := by
    rw [cStr_of_nul_notMem hnul, loopAnswer, if_pos rfl]
  obtain ⟨scopes, hscopes, hret⟩ := bind_eq_ok.1 hparse
  obtain rfl := Except.ok.inj hret
  rw [hanswer, parse_oneFile.1] at hscopes
  obtain rfl := Except.ok.inj hscopes
  refine ⟨rfl, fun name hname ↦ ?_, rfl⟩
  rw [List.mem_singleton.1 hname, hserver]
  exact List.mem_cons_self

/-- **The world is one of the catalogue.** -/
theorem tells_loop : selfAttached.Tells twoHolders loopIo where
  listing query params log request hpath hparams hurl hok remainder parsed hresidue hparse := by
    obtain ⟨hserver, rfl⟩ := server_of_twoHolders hparams
    obtain rfl : remainder = [] := hresidue
    have hnet : loopIo.net log request = loopAnswer request.url := rfl
    rw [hnet, hurl] at hok hparse
    -- the scopes of the server, and the listings below it
    rcases hpath with c | ⟨c, e, cs⟩
    · obtain ⟨hrest, hnames, hnone⟩ := told_scopes hserver hparse
      exact ⟨hrest, hnames, fun d hd ↦ absurd (hnone ▸ hd) List.not_mem_nil⟩
    · rw [listingOf] at hserver hok hparse ⊢
      generalize cs.getLast? = last at hserver hok hparse ⊢
      rcases last with - | d
      · rw [loopAnswer_scope] at hok hparse
        have he := of_ok_ite hok
        rw [if_pos he] at hparse
        obtain ⟨dids, hdids, hret⟩ := bind_eq_ok.1 hparse
        obtain rfl := Except.ok.inj hret
        obtain rfl := Except.ok.inj (hdids.symm.trans parse_loop.1)
        refine ⟨rfl, @told_didC (.dids c.text e.text) ?_ ?_⟩
        · rw [he, show c.text = ['s'] from hserver]
          exact List.mem_cons_of_mem _ List.mem_cons_self
        · show [c.text, e.text, ['c']] = _
          rw [he, show c.text = ['s'] from hserver]
      · rw [loopAnswer_container] at hok hparse
        obtain ⟨he, hd⟩ := of_ok_ite hok
        rw [if_pos ⟨he, hd⟩] at hparse
        obtain ⟨dids, hdids, hret⟩ := bind_eq_ok.1 hparse
        obtain rfl := Except.ok.inj hret
        obtain rfl := Except.ok.inj (hdids.symm.trans parse_loop.2)
        refine ⟨rfl, @told_didC (.containerDids c.text e.text d.text) ?_ ?_⟩
        · rw [he, hd, show c.text = ['s'] from hserver]
          exact List.mem_cons_of_mem _ (List.mem_cons_of_mem _ List.mem_cons_self)
        · show [c.text, e.text, ['c']] = _
          rw [he, show c.text = ['s'] from hserver]
  record c e n params log request hparams hurl hok front _ _ := by
    obtain ⟨hserver, rfl⟩ := server_of_twoHolders hparams
    have hnet : loopIo.net log request = loopAnswer request.url := rfl
    rw [hnet, hurl] at hok
    rw [loopAnswer_record] at hok
    obtain ⟨he, hn⟩ := of_ok_ite hok
    show [c.text, e.text, n.text] = _
    rw [hserver, he, hn]

/-! ### The chain of containers -/

/-- The names on the way to the container that is so many times in itself. -/
def chain (n : ℕ) : List Component := serverS :: scopeX :: List.replicate n containerC

/-- Every chain has one more name than the chain before. -/
theorem chain_succ (n : ℕ) : chain (n + 1) = chain n ++ [containerC] := by
  simp [chain, List.replicate_succ']

/-- A chain has a server and a scope in front. -/
theorem length_chain (n : ℕ) : (chain n).length = n + 2 := by
  simp [chain]

/-- Its path stands for the container, however long it is. -/
theorem entityOfPath_chain (n : ℕ) :
    entityOfPath (pathOf (chain (n + 1))) = .ok [['s'], ['x'], ['c']] := by
  have hlast : (List.replicate (n + 1) containerC).getLastD scopeX = containerC := by
    rw [List.replicate_succ', List.getLastD_concat]
  show entityOfPath (mkPath (serverS :: scopeX :: List.replicate (n + 1) containerC) false) = _
  rw [entityOfPath_mkPath, getLast_eq_getLastD, hlast]
  rfl

/-- A chain is not the root, -/
theorem isRootPath_chain (n : ℕ) : isRootPath (pathOf (chain n)) = false :=
  isRootPath_mkPath (List.cons_ne_nil _ _) false

/-- and its last name is not a hidden one. -/
theorem isHidden_chain (n : ℕ) : isHidden (pathOf (chain (n + 1))) = .ok false := by
  rw [chain_succ, pathOf_concat, isHidden_mkPath]
  rfl

/-- The depth is that of a container, or cannot be told. -/
theorem pathDepth_chain (n : ℕ) : pathDepth (pathOf (chain (n + 1))) = .ok (n + 3 : ℕ) ∨
    pathDepth (pathOf (chain (n + 1))) = .error .undefined := by
  -- up to the range of the counter the depth is the number of names, and beyond it there is none
  rcases Nat.lt_or_ge (n + 3) (2 ^ 15) with hshort | hlong
  · left
    have hcount : (mkPath (chain (n + 1)) false).count '/' < 32768 := by
      rw [count_mkPath, length_chain]
      simpa using hshort
    have hdepth := @pathDepth_mkPath (chain (n + 1)) (List.cons_ne_nil _ _) false hcount
    rwa [length_chain] at hdepth
  · right
    refine @pathDepth_of_letters (chain (n + 1)) (fun c hc ↦ ?_) ?_
    · rcases List.mem_cons.1 hc with rfl | hc
      · rfl
      rcases List.mem_cons.1 hc with rfl | hc
      · rfl
      · rw [List.eq_of_mem_replicate hc]
        rfl
    · rw [length_chain]
      omega

/-- The caches know the container, and the user has a token. -/
structure Warm (s : State) : Prop where
  valid : (rucioIsTokenValid loopIo ['s'] 7 s).1 = true
  container : s.isContainerCache.find (cacheKey [['s'], ['x'], ['c']]) = some (some true)
  listing : s.containerDidsCache.find (cacheKey [['s'], ['x'], ['c']]) = some (1000120, [didC])

section Warm

variable {s : State} {m : Mount}

/-- What is noted does not make the caches cold. -/
theorem Warm.note (h : Warm s) (e : Event) : Warm (s.note e) := by
  obtain ⟨srv, hfind, -, hvalid⟩ := exists_of_valid h.valid
  have hfind' : (s.note e).servers.find ['s'] = some srv := hfind
  refine ⟨?_, h.container, h.listing⟩
  rw [rucioIsTokenValid_of_find hfind']
  exact hvalid

/-- The user is let through, and nobody is asked for a token. -/
theorem Warm.authGate (h : Warm s) (n : ℕ) :
    FusePosix.authGate loopIo (pathOf (chain n)) sampleCaller s = .ok (true, s) := by
  obtain ⟨srv, -, hlookup, hvalid⟩ := exists_of_valid h.valid
  have hcheck : rucioIsTokenValid loopIo ['s'] 7 s = (true, s) := by
    rw [rucioIsTokenValid, hlookup]
    show ((srv.token 7).validAt _, s) = _
    rw [hvalid]
  have hserver : extractServerName (pathOf (chain n)) = ['s'] :=
    extractServerName_mkPath serverS (scopeX :: List.replicate n containerC) false
  rw [FusePosix.authGate, isRootPath_chain, if_neg Bool.false_ne_true, authenticateUser, hserver,
    show sampleCaller.uid = 7 from rfl, hcheck]
  rfl

/-- The path is found to be a container, whatever its length is: the key is made of the last name.
-/
theorem Warm.isContainer (h : Warm s) (n : ℕ) : ∃ e,
    rucioIsContainer loopIo (pathOf (chain (n + 1))) sampleCaller s = .ok (true, s.note e) :=
  ⟨_, rucioIsContainer_of_cached (entityOfPath_chain n) h.container⟩

/-- The content of the container is in the cache, and has not expired. -/
theorem Warm.containerDids (h : Warm s) : ∃ e,
    rucioListContainerDids loopIo ['x'] ['c'] ['s'] sampleCaller s = .ok ([didC], s.note e) := by
  have hfresh : ¬(1000120 : ℤ) < loopIo.now := by decide
  refine ⟨.used .containerDids [['s'], ['x'], ['c']] (cacheKey [['s'], ['x'], ['c']]), ?_⟩
  rw [rucioListContainerDids, h.listing]
  exact if_neg hfresh

/-- The gate opens for a lookup. -/
theorem Warm.getattr (h : Warm m.rest) (n : ℕ) (st : Stat) :
    rucioGetattr loopIo (pathOf (chain (n + 1))) sampleCaller st m =
      onRest (getattrBody loopIo (pathOf (chain (n + 1))) sampleCaller st) m := by
  have hgate : onRest (FusePosix.authGate loopIo (pathOf (chain (n + 1))) sampleCaller) m =
      .ok (true, m) := by
    rw [onRest, h.authGate]
    rfl
  have hmac : isMacSpecific (pathOf (chain (n + 1))) = .ok false := by
    rw [chain_succ, pathOf_concat, isMacSpecific_mkPath]
    decide +kernel
  rw [rucioGetattr, isHidden_chain, ok_bind, if_neg Bool.false_ne_true, hmac, ok_bind,
    if_neg Bool.false_ne_true, hgate, ok_bind]
  exact if_neg Bool.false_ne_true

/-- The gate opens for a listing. -/
theorem Warm.readdir (h : Warm m.rest) (n : ℕ) :
    rucioReaddir loopIo (pathOf (chain (n + 1))) sampleCaller m =
      onRest (readdirBody loopIo (pathOf (chain (n + 1))) sampleCaller) m := by
  have hgate : onRest (FusePosix.authGate loopIo (pathOf (chain (n + 1))) sampleCaller) m =
      .ok (true, m) := by
    rw [onRest, h.authGate]
    rfl
  rw [rucioReaddir, hgate, ok_bind]
  exact if_neg Bool.false_ne_true

/-- Where the depth can be told, the path is neither that of a server nor that of a scope. -/
theorem below_scope_of_depth {n : ℕ}
    (hdepth : pathDepth (pathOf (chain (n + 1))) = .ok (n + 3 : ℕ)) :
    isServerMountpoint (pathOf (chain (n + 1))) = .ok false ∧
      isMainScope (pathOf (chain (n + 1))) = .ok false := by
  have hone : (((n + 3 : ℕ) : ℤ) == 1) = false := by
    rw [beq_eq_false_iff_ne]
    omega
  have htwo : (((n + 3 : ℕ) : ℤ) == 2) = false := by
    rw [beq_eq_false_iff_ne]
    omega
  constructor
  · rw [isServerMountpoint, hdepth, ok_bind, pure_eq_ok, hone]
  · rw [isMainScope, hdepth, ok_bind, pure_eq_ok, htwo]

/-- **A lookup finds a directory**, or is not defined. -/
theorem Warm.look (h : Warm m.rest) (n : ℕ) : ∃ wild st m',
    outcome (pathOf (chain (n + 1))) wild
      (rucioGetattr loopIo (pathOf (chain (n + 1))) sampleCaller {} m) = some ((0, st), m') ∧
    st.isDirectory = true ∧ Warm m'.rest := by
  rw [h.getattr]
  -- either the callback runs through its branch for containers, or its depth is not defined and
  -- anything may come of it
  rcases pathDepth_chain n with hdepth | hdepth
  · obtain ⟨hserver, hmain⟩ := below_scope_of_depth hdepth
    obtain ⟨hname, hscope, hlast⟩ := names_of_entityOfPath (entityOfPath_chain n)
    obtain ⟨e₁, hcontainer⟩ := h.isContainer n
    obtain ⟨e₂, hdids⟩ := (h.note e₁).containerDids
    obtain ⟨st, hbody, hdirectory⟩ : ∃ st, getattrBody loopIo (pathOf (chain (n + 1))) sampleCaller
        {} m.rest = .ok ((0, st), (m.rest.note e₁).note e₂) ∧ st.isDirectory = true := by
      simp only [getattrBody, isRootPath_chain, hserver, hmain, ok_bind, Bool.false_eq_true,
        if_false]
      rw [hcontainer, ok_bind]
      simp only [if_true]
      rw [hscope, ok_bind, hlast, ok_bind, hname, hdids, ok_bind, pure_eq_ok]
      exact ⟨_, rfl, isDirectory_of_mode rfl⟩
    refine ⟨((0, {}), m), st, { m with rest := (m.rest.note e₁).note e₂ }, ?_, hdirectory,
      (h.note e₁).note e₂⟩
    rw [onRest_of_ok hbody, outcome_ok]
  · have hbody : getattrBody loopIo (pathOf (chain (n + 1))) sampleCaller {} m.rest =
        .error .undefined := by
      simp only [getattrBody, isRootPath_chain, isServerMountpoint, hdepth, error_bind,
        Bool.false_eq_true, if_false]
    refine ⟨((0, { mode := directoryMode }), m), { mode := directoryMode }, m, ?_,
      isDirectory_of_mode rfl, h⟩
    rw [onRest_of_error hbody]
    exact outcome_undefined hdepth _

/-- **A listing shows the container again**, or is not defined. -/
theorem Warm.list (h : Warm m.rest) (n : ℕ) : ∃ wild names m',
    outcome (pathOf (chain (n + 1))) wild
      (rucioReaddir loopIo (pathOf (chain (n + 1))) sampleCaller m) = some ((0, names), m') ∧
    ['c'] ∈ names ∧ Warm m'.rest := by
  rw [h.readdir]
  rcases pathDepth_chain n with hdepth | hdepth
  · obtain ⟨hserver, hmain⟩ := below_scope_of_depth hdepth
    obtain ⟨hname, hscope, hlast⟩ := names_of_entityOfPath (entityOfPath_chain n)
    obtain ⟨e₁, hcontainer⟩ := h.isContainer n
    obtain ⟨e₂, hdids⟩ := (h.note e₁).containerDids
    have hbody : readdirBody loopIo (pathOf (chain (n + 1))) sampleCaller m.rest =
        .ok ((0, finalizeFiller [['c']]), (m.rest.note e₁).note e₂) := by
      simp only [readdirBody, isHidden_chain, isRootPath_chain, hserver, hmain, ok_bind,
        Bool.false_eq_true, if_false]
      rw [hcontainer, ok_bind]
      simp only [if_true]
      rw [hscope, ok_bind, hlast, ok_bind, hname, hdids, ok_bind, pure_eq_ok]
      rfl
    refine ⟨((0, []), m), finalizeFiller [['c']], { m with rest := (m.rest.note e₁).note e₂ }, ?_,
      by decide, (h.note e₁).note e₂⟩
    rw [onRest_of_ok hbody, outcome_ok]
  · have hbody : readdirBody loopIo (pathOf (chain (n + 1))) sampleCaller m.rest =
        .error .undefined := by
      simp only [readdirBody, isHidden_chain, isRootPath_chain, isServerMountpoint, hdepth, ok_bind,
        error_bind, Bool.false_eq_true, if_false]
    refine ⟨((0, [['c']]), m), [['c']], m, ?_, by decide, h⟩
    rw [onRest_of_error hbody]
    exact outcome_undefined hdepth _

end Warm

/-! ### The walk -/

/-- What the walk holds behind some of its steps: the container has been found, so many times in
itself. -/
def Found (n : ℕ) : Prop := ∃ actions w, (∀ a ∈ actions, WalkAction.io a = loopIo) ∧
  exec Walk.step (.start twoHolders [['s']]) actions = some w ∧
  chain (n + 1) ∈ w.directories ∧ Warm w.mount.rest

/-- The way to the container itself. -/
def firstActions : List WalkAction :=
  [.list loopIo sampleCaller [] ((0, []), holdersMount),
    .look loopIo sampleCaller [serverS] ((0, {}), holdersMount),
    .list loopIo sampleCaller [serverS] ((0, []), holdersMount),
    .look loopIo sampleCaller [serverS, scopeX] ((0, {}), holdersMount),
    .list loopIo sampleCaller [serverS, scopeX] ((0, []), holdersMount),
    .look loopIo sampleCaller [serverS, scopeX, containerC] ((0, {}), holdersMount)]

/-- The first walk, which finds the container and fills the caches. -/
theorem found_zero : Found 0 := by
  -- from the root to the container, with empty caches
  have hrun : (exec Walk.step (.start twoHolders [['s']]) firstActions).any (fun w ↦
      decide (chain 1 ∈ w.directories ∧ (rucioIsTokenValid loopIo ['s'] 7 w.mount.rest).1 = true ∧
        w.mount.rest.isContainerCache.find (cacheKey [['s'], ['x'], ['c']]) = some (some true) ∧
        w.mount.rest.containerDidsCache.find (cacheKey [['s'], ['x'], ['c']]) =
          some (1000120, [didC]))) = true := by
    decide +kernel
  obtain ⟨w, hw, hfacts⟩ := (Option.any_eq_true _ _).1 hrun
  obtain ⟨hfound, hvalid, hcontainer, hlisting⟩ := of_decide_eq_true hfacts
  refine ⟨firstActions, w, fun a ha ↦ ?_, hw, hfound, hvalid, hcontainer, hlisting⟩
  simp only [firstActions, List.mem_cons, List.not_mem_nil, or_false] at ha
  rcases ha with rfl | rfl | rfl | rfl | rfl | rfl <;> rfl

/-- **Once found, the container is found in itself.** -/
theorem found_succ {n : ℕ} (h : Found n) : Found (n + 1) := by
  obtain ⟨actions, w, hio, hrun, hfound, hwarm⟩ := h
  obtain ⟨wild₁, names, m₁, hlist, hname, hwarm₁⟩ := hwarm.list n
  obtain ⟨wild₂, st, m₂, hlook, hdirectory, hwarm₂⟩ := hwarm₁.look (n + 1)
  -- the listing shows the next path of the chain
  have hshown : chain (n + 2) ∈ Walk.shown (chain (n + 1)) names := by
    have hcomponent : componentOf ['c'] = some containerC := by decide
    rw [chain_succ (n + 1)]
    exact List.mem_map_of_mem (List.mem_filterMap.2 ⟨['c'], hname, hcomponent⟩)
  have hfirst : w.step (.list loopIo sampleCaller (chain (n + 1)) wild₁) =
      some { w with mount := m₁, entries := w.entries ++ Walk.shown (chain (n + 1)) names } := by
    rw [Walk.step, if_pos hfound, hlist]
    rfl
  have hsecond : Walk.step
      { w with mount := m₁, entries := w.entries ++ Walk.shown (chain (n + 1)) names }
      (.look loopIo sampleCaller (chain (n + 2)) wild₂) = some
        { w with
          mount := m₂
          directories := w.directories ++ [chain (n + 2)]
          entries := w.entries ++ Walk.shown (chain (n + 1)) names } := by
    rw [Walk.step, if_pos (List.mem_append_right _ hshown), hlook, Option.map_some]
    simp only [hdirectory, and_self, if_true]
  refine ⟨actions ++ [.list loopIo sampleCaller (chain (n + 1)) wild₁,
    .look loopIo sampleCaller (chain (n + 2)) wild₂],
    ⟨m₂, w.directories ++ [chain (n + 2)], w.entries ++ Walk.shown (chain (n + 1)) names⟩,
    fun a ha ↦ ?_, ?_, List.mem_append_right _ (List.mem_singleton_self _), hwarm₂⟩
  · rcases List.mem_append.1 ha with ha | ha
    · exact hio a ha
    · rcases List.mem_pair.1 ha with rfl | rfl <;> rfl
  · rw [exec_append, hrun, Option.bind_some, exec_cons, hfirst, Option.bind_some, exec_cons,
      hsecond, Option.bind_some, exec_nil]

/-- **The container is found any number of times in itself.** -/
theorem found (n : ℕ) : Found n := by
  induction n with
  | zero => exact found_zero
  | succ n ih => exact found_succ ih

/-- **A walk that does not end.** One container, attached to itself, is enough for infinitely many
directories. -/
theorem directoryPaths_not_finite :
    ¬(selfAttached.directoryPaths twoHolders [['s']]).Finite := by
  refine Set.infinite_of_injective_forall_mem (f := fun n ↦ pathOf (chain (n + 1))) ?_ fun n ↦ ?_
  · intro m n hpath
    -- paths of different lengths are different, which the slashes show
    have hcount := congrArg (List.count '/') hpath
    have hlength : ∀ n, (pathOf (chain n)).count '/' = n + 2 := fun n ↦ by
      rw [← length_chain n]
      exact count_mkPath (chain n) false
    simp only [hlength] at hcount
    omega
  · obtain ⟨actions, w, hio, hrun, hfound, -⟩ := found n
    exact ⟨actions, w, chain (n + 1), fun a ha ↦ (hio a ha).symm ▸ tells_loop, hrun, hfound, rfl⟩

end FusePosix
