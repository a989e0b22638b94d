import FusePosix.Fuse.Catalogue

/-!
# Walking the mount

A program that walks a mount lists a directory, looks its entries up, and goes on with those that
are directories. A `Walk` is such a program at work: it keeps the directories it has found and the
entries it has seen, and takes them in whatever order. The servers may answer as they like, as long
as what they answer is in a `Catalogue`.

Below a scope a path stands for its last name, and the names in front of it are not looked at. So a
container that is listed in itself has itself below it, without end, and nothing in `rucioReaddir`
or `rucioGetattr` sees to it. The only limit is the counter of `pathDepth`, and it is none: a path
of `2 ^ 15` names makes it read memory that is not of the path, and then the call may return
anything (`outcome`).

So the walk ends if no chain of nested names gets that long (`directoryPaths_finite`). The
over-approximation is in `Placed`: by the cache keys, a listing may be taken for that of another
path, and so may the kind of a DID.
-/

namespace FusePosix

open Transition

/-! ### Names and paths -/

/-- The path of a list of names. -/
def pathOf : List Component → Str
  | [] => rucioRootPath
  | c :: cs => mkPath (c :: cs) false

theorem Component.eq_of_text {c d : Component} (h : c.text = d.text) : c = d := by
  cases c
  cases d
  cases h
  rfl

instance : DecidableEq Component := fun c d ↦
  decidable_of_iff (c.text = d.text) ⟨Component.eq_of_text, congrArg Component.text⟩

theorem nul_notMem_cStr (name : Str) : '\x00' ∉ cStr name := by
  intro h
  simpa using List.mem_takeWhile_imp h

/-- What becomes of a name that is handed to the filler: a C string, which has to be a name to be
shown. -/
def componentOf (name : Str) : Option Component :=
  if h : cStr name ≠ [] ∧ '/' ∉ cStr name then
    some ⟨cStr name, h.1, h.2, nul_notMem_cStr name⟩
  else none

theorem text_of_componentOf {name : Str} {n : Component} (h : componentOf name = some n) :
    n.text = cStr name := by
  rw [componentOf] at h
  split_ifs at h
  exact (congrArg Component.text (Option.some.inj h)).symm

/-! ### Walks -/

/-- `S_ISDIR` of the mode. -/
def Stat.isDirectory (st : Stat) : Bool := st.mode &&& 0o170000 == 0o040000

theorem isDirectory_of_mode {st : Stat} (h : st.mode = directoryMode) : st.isDirectory = true := by
  rw [Stat.isDirectory, h]
  decide

/-- How a call on a path ends. If the depth of the path cannot be told without reading memory that
is not of the path, any result will do. Other faults end the walk. -/
def outcome {α : Type} (path : Str) (wild : α) : Except Fault α → Option α
  | .ok result => some result
  | .error .undefined => if pathDepth path = .error .undefined then some wild else none
  | .error _ => none

@[simp] theorem outcome_ok {α : Type} (path : Str) (wild result : α) :
    outcome path wild (.ok result) = some result := rfl

theorem outcome_undefined {α : Type} {path : Str} (h : pathDepth path = .error .undefined)
    (wild : α) : outcome path wild (.error .undefined) = some wild := by
  rw [outcome, if_pos h]

/-- A walk of the mount. -/
structure Walk where
  mount : Mount
  /-- The directories that have been found. -/
  directories : List (List Component) := [[]]
  /-- The entries that have been shown. -/
  entries : List (List Component) := []

/-- What a walk does next: list a directory or look an entry up, each with the result the call has
if it may have any. -/
inductive WalkAction where
  | list (io : Io) (caller : Caller) (cs : List Component) (wild : (ℤ × List Str) × Mount)
  | look (io : Io) (caller : Caller) (cs : List Component) (wild : (ℤ × Stat) × Mount)

/-- The world while it does that. -/
def WalkAction.io : WalkAction → Io
  | .list io _ _ _ => io
  | .look io _ _ _ => io

namespace Walk

/-- The entries of a listing. -/
def shown (cs : List Component) (names : List Str) : List (List Component) :=
  (names.filterMap componentOf).map fun n ↦ cs ++ [n]

/-- One step of a walk. -/
def step (w : Walk) : WalkAction → Option Walk
  | .list io caller cs wild =>
    if cs ∈ w.directories then
      (outcome (pathOf cs) wild (rucioReaddir io (pathOf cs) caller w.mount)).map
        fun ((_, names), mount) ↦ { w with mount, entries := w.entries ++ shown cs names }
    else none
  | .look io caller cs wild =>
    if cs ∈ w.entries then
      (outcome (pathOf cs) wild (rucioGetattr io (pathOf cs) caller {} w.mount)).map
        fun ((result, st), mount) ↦ { w with
          mount
          directories :=
            if result = 0 ∧ st.isDirectory then w.directories ++ [cs] else w.directories }
    else none

/-- A walk of a mount that has just been started. -/
def start (servers : ServerMap) (serverNames : List Str) : Walk where
  mount := { rest := State.start servers serverNames }

end Walk

/-! ### Chains of names -/

namespace Catalogue

/-- **The chains of nested names**: a server that is configured, one of its scopes, and then each
name listed in the one before it, which is a container. Names that are not looked up have no part
in it. -/
inductive Placed (catalogue : Catalogue) (serverNames : List Str) : List Component → Prop
  | root : Placed catalogue serverNames []
  | server {c : Component} {name : Str} (hplain : c.Plain) (htext : c.text = cStr name)
      (hname : name ∈ serverNames) : Placed catalogue serverNames [c]
  | scope {c e : Component} {name : Str} (hserver : Placed catalogue serverNames [c])
      (hplain : e.Plain) (htext : e.text = cStr name)
      (hlists : catalogue.Lists (.scopes c.text) name) : Placed catalogue serverNames [c, e]
  | did {c e n : Component} {cs : List Component} {name : Str}
      (hdirectory : Placed catalogue serverNames (c :: e :: cs))
      (htaken : ∀ d ∈ cs.getLast?, catalogue.Taken c e d) (hplain : n.Plain)
      (htext : n.text = cStr name) (hlists : catalogue.Lists (listingOf c e cs) name) :
      Placed catalogue serverNames (c :: e :: cs ++ [n])

/-- No chain is too long for the counter of `pathDepth`. -/
def ShortChains (catalogue : Catalogue) (serverNames : List Str) : Prop :=
  ∀ cs, catalogue.Placed serverNames cs → cs.length < 2 ^ 15

/-- **The paths of the directories that walks find**: in every world of the catalogue, in whatever
order and for whatever users. -/
def directoryPaths (catalogue : Catalogue) (servers : ServerMap) (serverNames : List Str) :
    Set Str :=
  {path | ∃ actions w cs, (∀ a ∈ actions, catalogue.Tells servers (WalkAction.io a)) ∧
    exec Walk.step (.start servers serverNames) actions = some w ∧
    cs ∈ w.directories ∧ path = pathOf cs}

/-! ### Callbacks -/

section Callbacks

variable {catalogue : Catalogue} {servers : ServerMap} {serverNames : List Str} {io : Io}
  {caller : Caller} {s t : State} {cs : List Component} {depth : ℤ}

/-- A path that is not too long has the depth that it should have. -/
theorem length_of_depth (hroot : isRootPath (pathOf cs) = false) (hshort : cs.length < 2 ^ 15)
    (hdepth : pathDepth (pathOf cs) = .ok depth) : 0 < cs.length ∧ depth = cs.length := by
  rcases cs with - | ⟨c, cs⟩
  · exact absurd hroot (by decide)
  · have hcount : (mkPath (c :: cs) false).count '/' < 32768 := by
      rw [count_mkPath]
      simpa using hshort
    have hlength := pathDepth_mkPath (List.cons_ne_nil c cs) false hcount
    exact ⟨Nat.succ_pos _, Except.ok.inj (hdepth.symm.trans hlength)⟩

theorem eq_singleton_of_depth (hroot : isRootPath (pathOf cs) = false)
    (hshort : cs.length < 2 ^ 15) (hdepth : pathDepth (pathOf cs) = .ok 1) : ∃ c, cs = [c] := by
  obtain ⟨-, hlength⟩ := length_of_depth hroot hshort hdepth
  exact List.length_eq_one_iff.1 (by omega)

theorem eq_pair_of_depth (hroot : isRootPath (pathOf cs) = false)
    (hshort : cs.length < 2 ^ 15) (hdepth : pathDepth (pathOf cs) = .ok 2) :
    ∃ c e, cs = [c, e] := by
  obtain ⟨-, hlength⟩ := length_of_depth hroot hshort hdepth
  exact List.length_eq_two.1 (by omega)

theorem eq_deep_of_depth (hroot : isRootPath (pathOf cs) = false) (hshort : cs.length < 2 ^ 15)
    (hdepth : pathDepth (pathOf cs) = .ok depth) (hone : depth ≠ 1) (htwo : depth ≠ 2) :
    ∃ c e ds d, cs = c :: e :: (ds ++ [d]) := by
  obtain ⟨hpos, hlength⟩ := length_of_depth hroot hshort hdepth
  rcases cs with - | ⟨c, - | ⟨e, cs⟩⟩
  · exact absurd hpos (Nat.lt_irrefl 0)
  · exact absurd hlength hone
  · rcases cs.eq_nil_or_concat with rfl | ⟨ds, d, rfl⟩
    · exact absurd hlength htwo
    · exact ⟨c, e, ds, d, by rw [List.concat_eq_append]⟩

/-- **A lookup learns nothing but what it is told.** -/
theorem Told.getattrEnds (h : catalogue.Told servers serverNames s)
    (hworld : catalogue.Tells servers io) (hshort : cs.length < 2 ^ 15) {st : Stat}
    {result : ℤ × Stat} (hends : GetattrEnds io (pathOf cs) caller st s result t) :
    catalogue.Told servers serverNames t := by
  induction hends with
  | root | unknownServer => exact h
  | server hroot hdepth _ hscopes =>
    obtain ⟨c, rfl⟩ := eq_singleton_of_depth hroot hshort hdepth
    rw [pathOf, extractServerName_mkPath] at hscopes
    exact (h.rucioListScopes hworld c hscopes).1
  | unknownScope hroot hdepth _ hscopes =>
    obtain ⟨c, e, rfl⟩ := eq_pair_of_depth hroot hshort hdepth
    rw [pathOf, extractServerName_mkPath] at hscopes
    exact (h.rucioListScopes hworld c hscopes).1
  | scope hroot hdepth hscope hscopes _ hdids =>
    obtain ⟨c, e, rfl⟩ := eq_pair_of_depth hroot hshort hdepth
    rw [pathOf, extractServerName_mkPath] at hscopes hdids
    obtain rfl := Except.ok.inj ((extractScope_mkPath c e [] false).symm.trans hscope)
    exact ((h.rucioListScopes hworld c hscopes).1.rucioListDids hworld c e hdids).1
  | container hroot hdepth hone htwo hcontainer hscope hname hdids =>
    obtain ⟨c, e, ds, d, rfl⟩ := eq_deep_of_depth hroot hshort hdepth hone htwo
    rw [pathOf, extractServerName_mkPath] at hdids
    obtain rfl := Except.ok.inj ((extractScope_mkPath c e (ds ++ [d]) false).symm.trans hscope)
    obtain rfl := Except.ok.inj ((extractName_mkPath (c :: e :: ds) d false).symm.trans hname)
    have h₁ := (h.rucioIsContainer hworld c e d ds hcontainer).1
    exact (h₁.rucioListContainerDids hworld c e d hdids).1
  | file hroot hdepth hone htwo hcontainer hsize =>
    obtain ⟨c, e, ds, d, rfl⟩ := eq_deep_of_depth hroot hshort hdepth hone htwo
    exact (h.rucioIsContainer hworld c e d ds hcontainer).1.rucioGetSize hsize

/-- A plain name in a directory is one of the listing. -/
theorem mem_of_mem_finalizeFiller {n : Component} {name : Str} {names : List Str} (hplain : n.Plain)
    (htext : n.text = cStr name) (hmem : name ∈ finalizeFiller names) : name ∈ names := by
  rcases List.mem_append.1 hmem with hmem | hdots
  · exact hmem
  · refine absurd ?_ hplain.1
    rw [htext]
    rcases List.mem_pair.1 hdots with rfl | rfl <;> rfl

/-- What a directory below a server shows belongs below it. -/
theorem Placed.entry {c e n : Component} {name : Str} {names : List Str}
    (h : catalogue.Placed serverNames (c :: e :: cs))
    (htaken : ∀ d ∈ cs.getLast?, catalogue.Taken c e d)
    (hlists : ∀ name ∈ names, catalogue.Lists (listingOf c e cs) name)
    (hname : name ∈ finalizeFiller names) (hplain : n.Plain) (htext : n.text = cStr name) :
    catalogue.Placed serverNames (c :: e :: cs ++ [n]) :=
  .did h htaken hplain htext (hlists name (mem_of_mem_finalizeFiller hplain htext hname))

/-- **A directory shows names that belong below it**, and learns nothing but what it is told. -/
theorem Told.readdirEnds (h : catalogue.Told servers serverNames s)
    (hworld : catalogue.Tells servers io) (hplaced : catalogue.Placed serverNames cs)
    (hshort : cs.length < 2 ^ 15) {listed : ℤ × List Str}
    (hends : ReaddirEnds io (pathOf cs) caller s listed t) :
    catalogue.Told servers serverNames t ∧ ∀ name ∈ listed.2, ∀ n : Component, n.Plain →
      n.text = cStr name → catalogue.Placed serverNames (cs ++ [n]) := by
  -- one case for each return of `rucio_readdir`: the depth it found fixes the shape of the path,
  -- and with it which listing the names come from
  induction hends with
  | skipped => exact ⟨h, fun name hname ↦ absurd hname List.not_mem_nil⟩
  | root _ hroot =>
    have hcs : cs = [] := by
      by_contra hne
      obtain ⟨c, ds, rfl⟩ := List.exists_cons_of_ne_nil hne
      exact Bool.false_ne_true ((isRootPath_mkPath hne false).symm.trans hroot)
    subst hcs
    refine ⟨h, fun name hname n hplain htext ↦ ?_⟩
    have hmem := mem_of_mem_finalizeFiller hplain htext hname
    exact .server hplain htext (h.serverNames ▸ hmem)
  | server _ hroot hdepth hscopes =>
    obtain ⟨c, rfl⟩ := eq_singleton_of_depth hroot hshort hdepth
    rw [pathOf, extractServerName_mkPath] at hscopes
    obtain ⟨ht, hlists⟩ := h.rucioListScopes hworld c hscopes
    refine ⟨ht, fun name hname n hplain htext ↦ ?_⟩
    exact .scope hplaced hplain htext
      (hlists name (mem_of_mem_finalizeFiller hplain htext hname))
  | scope _ hroot hdepth hscope hdids =>
    obtain ⟨c, e, rfl⟩ := eq_pair_of_depth hroot hshort hdepth
    rw [pathOf, extractServerName_mkPath] at hdids
    obtain rfl := Except.ok.inj ((extractScope_mkPath c e [] false).symm.trans hscope)
    obtain ⟨ht, hlists⟩ := h.rucioListDids hworld c e hdids
    exact ⟨ht, fun name hname n hplain htext ↦
      hplaced.entry (fun d hd ↦ absurd hd (by simp)) hlists hname hplain htext⟩
  | container _ hroot hdepth hone htwo hcontainer hscope hname hdids =>
    obtain ⟨c, e, ds, d, rfl⟩ := eq_deep_of_depth hroot hshort hdepth hone htwo
    rw [pathOf, extractServerName_mkPath] at hdids
    obtain rfl := Except.ok.inj ((extractScope_mkPath c e (ds ++ [d]) false).symm.trans hscope)
    obtain rfl := Except.ok.inj ((extractName_mkPath (c :: e :: ds) d false).symm.trans hname)
    obtain ⟨h₁, htaken⟩ := h.rucioIsContainer hworld c e d ds hcontainer
    obtain ⟨ht, hlists⟩ := h₁.rucioListContainerDids hworld c e d hdids
    have hlast : (ds ++ [d]).getLast? = some d := List.getLast?_concat
    refine ⟨ht, fun name hname n hplain htext ↦
      hplaced.entry (fun d' hd ↦ ?_) ?_ hname hplain htext⟩
    · obtain rfl : d = d' := Option.some.inj (hlast.symm.trans hd)
      exact htaken rfl
    · rw [listingOf, hlast]
      exact hlists
  | file _ hroot hdepth hone htwo hcontainer =>
    obtain ⟨c, e, ds, d, rfl⟩ := eq_deep_of_depth hroot hshort hdepth hone htwo
    exact ⟨(h.rucioIsContainer hworld c e d ds hcontainer).1,
      fun name hname ↦ absurd hname List.not_mem_nil⟩

end Callbacks

end Catalogue

/-! ### Steps and runs -/

section Runs

variable {catalogue : Catalogue} {servers : ServerMap} {serverNames : List Str}

theorem pathOf_concat (cs : List Component) (n : Component) :
    pathOf (cs ++ [n]) = mkPath (cs ++ [n]) false := by
  cases cs <;> rfl

/-- A call on a short path has no result but its own. -/
theorem outcome_eq_some {α : Type} {cs : List Component} {wild result : α} {call : Except Fault α}
    (hshort : cs.length < 2 ^ 15) (h : outcome (pathOf cs) wild call = some result) :
    call = .ok result := by
  have hdepth : pathDepth (pathOf cs) ≠ .error .undefined := by
    rcases cs with - | ⟨c, cs⟩
    · decide
    · have hcount : (mkPath (c :: cs) false).count '/' < 32768 := by
        rw [count_mkPath]
        simpa using hshort
      rw [pathOf, pathDepth_mkPath (List.cons_ne_nil c cs) false hcount]
      exact fun h ↦ nomatch h
  rcases call with e | found
  · rcases e <;> simp [outcome, hdepth] at h
  · exact congrArg Except.ok (Option.some.inj h)

/-- A name that is not looked up is no directory. -/
theorem rucioGetattr_of_not_plain {io : Io} {caller : Caller} {st : Stat} {m : Mount}
    {cs : List Component} {n : Component} (h : ¬n.Plain) :
    rucioGetattr io (pathOf (cs ++ [n])) caller st m = .ok ((0, st), m) := by
  rw [pathOf_concat, rucioGetattr, isHidden_mkPath, ok_bind]
  by_cases hdot : n.text.head? = some '.'
  · rw [if_pos (by simpa using hdot), pure_eq_ok]
  · have hmac : (n.text == "HEAD".toList || n.text == "DCIM".toList) = true := by
      rw [Component.Plain, not_and_or, not_and_or, not_not, not_not, not_not] at h
      simpa using h.resolve_left hdot
    rw [if_neg (by simpa using hdot), isMacSpecific_mkPath, ok_bind, hmac, if_pos rfl, pure_eq_ok]

/-- A walk that has only seen what is in the catalogue. -/
structure Walk.Within (catalogue : Catalogue) (servers : ServerMap) (serverNames : List Str)
    (w : Walk) : Prop where
  told : catalogue.Told servers serverNames w.mount.rest
  directories : ∀ cs ∈ w.directories, catalogue.Placed serverNames cs
  entries : ∀ cs ∈ w.entries, catalogue.Placed serverNames cs ∨
    ∃ ds n, cs = ds ++ [n] ∧ ¬Component.Plain n

theorem Walk.within_start (catalogue : Catalogue) (servers : ServerMap) (serverNames : List Str) :
    (Walk.start servers serverNames).Within catalogue servers serverNames where
  told := by
    refine ⟨sameSettings_refl _, rfl, catalogue.residue_nil, fun query entry hentry ↦ ?_,
      fun key found h ↦ ?_⟩
    · have hnone : (State.start servers serverNames).expiring query = none := by
        rcases query with - | - | - | - | - <;> rfl
      exact absurd (hnone.symm.trans hentry) (by simp)
    · have hnone : (State.start servers serverNames).isContainerCache.find key = none := rfl
      exact absurd (hnone.symm.trans h) (by simp)
  directories cs hcs := by
    obtain rfl : cs = [] := List.mem_singleton.1 hcs
    exact .root
  entries cs hcs := absurd hcs List.not_mem_nil

/-- The state behind a callback. -/
theorem Catalogue.Told.getattr {io : Io} {caller : Caller} {cs : List Component} {st : Stat}
    {found : ℤ × Stat} {m m' : Mount} (h : catalogue.Told servers serverNames m.rest)
    (hworld : catalogue.Tells servers io) (hshort : cs.length < 2 ^ 15)
    (hrun : rucioGetattr io (pathOf cs) caller st m = .ok (found, m')) :
    catalogue.Told servers serverNames m'.rest := by
  rcases getattrRuns_of_eq_ok hrun with - | hgate | ⟨-, -, hgate, hends⟩
  · exact h
  · exact h.quiet (quiet_authGate hgate) (serverNames_authGate hgate)
  · exact (h.quiet (quiet_authGate hgate) (serverNames_authGate hgate)).getattrEnds hworld hshort
      hends

theorem Catalogue.Told.readdir {io : Io} {caller : Caller} {cs : List Component}
    {listed : ℤ × List Str} {m m' : Mount} (h : catalogue.Told servers serverNames m.rest)
    (hworld : catalogue.Tells servers io) (hplaced : catalogue.Placed serverNames cs)
    (hshort : cs.length < 2 ^ 15)
    (hrun : rucioReaddir io (pathOf cs) caller m = .ok (listed, m')) :
    catalogue.Told servers serverNames m'.rest ∧ ∀ name ∈ listed.2, ∀ n : Component, n.Plain →
      n.text = cStr name → catalogue.Placed serverNames (cs ++ [n]) := by
  rcases readdirRuns_of_eq_ok hrun with hgate | ⟨hgate, hends⟩
  · exact ⟨h.quiet (quiet_authGate hgate) (serverNames_authGate hgate),
      fun name hname ↦ absurd hname List.not_mem_nil⟩
  · exact (h.quiet (quiet_authGate hgate) (serverNames_authGate hgate)).readdirEnds hworld hplaced
      hshort hends

/-- **A step of a walk stays within the catalogue**, if its chains are short. -/
theorem Walk.Within.step {w w' : Walk} {a : WalkAction}
    (hchains : catalogue.ShortChains serverNames)
    (h : w.Within catalogue servers serverNames) (hworld : catalogue.Tells servers a.io)
    (hstep : w.step a = some w') : w'.Within catalogue servers serverNames := by
  -- a listing adds the entries it shows, a lookup the directory it finds
  rcases a with ⟨io, caller, cs, wild⟩ | ⟨io, caller, cs, wild⟩
  · simp only [Walk.step] at hstep
    split_ifs at hstep with hcs
    obtain ⟨⟨⟨result, names⟩, mount⟩, hcall, rfl⟩ := Option.map_eq_some_iff.1 hstep
    have hplaced := h.directories cs hcs
    have hrun := outcome_eq_some (hchains cs hplaced) hcall
    obtain ⟨htold, hnames⟩ := h.told.readdir hworld hplaced (hchains cs hplaced) hrun
    refine ⟨htold, h.directories, fun ds hds ↦ ?_⟩
    rcases List.mem_append.1 hds with hold | hnew
    · exact h.entries ds hold
    · obtain ⟨n, hn, rfl⟩ := List.mem_map.1 hnew
      obtain ⟨name, hname, hcomponent⟩ := List.mem_filterMap.1 hn
      -- a hidden name, or one a Mac asks for, is kept apart: it is never looked up
      by_cases hplain : n.Plain
      · exact Or.inl (hnames name hname n hplain (text_of_componentOf hcomponent))
      · exact Or.inr ⟨cs, n, rfl, hplain⟩
  · simp only [Walk.step] at hstep
    split_ifs at hstep with hcs
    obtain ⟨⟨⟨result, st⟩, mount⟩, hcall, rfl⟩ := Option.map_eq_some_iff.1 hstep
    -- an entry that is placed is looked up; a name that is kept apart gives the record back as it
    -- was, which is no directory
    rcases h.entries cs hcs with hplaced | ⟨ds, n, rfl, hplain⟩
    · have hrun := outcome_eq_some (hchains cs hplaced) hcall
      refine ⟨h.told.getattr hworld (hchains cs hplaced) hrun, fun ds hds ↦ ?_, h.entries⟩
      split_ifs at hds with hdirectory
      · rcases List.mem_append.1 hds with hold | hnew
        · exact h.directories ds hold
        · exact List.mem_singleton.1 hnew ▸ hplaced
      · exact h.directories ds hds
    · rw [rucioGetattr_of_not_plain hplain, outcome] at hcall
      obtain ⟨⟨rfl, rfl⟩, rfl⟩ : ((0 : ℤ) = result ∧ ({} : Stat) = st) ∧ w.mount = mount := by
        simpa using hcall
      refine ⟨h.told, fun cs hds ↦ ?_, h.entries⟩
      have hmode : ({} : Stat).isDirectory = false := by decide
      rw [if_neg (fun hdirectory ↦ Bool.false_ne_true (hmode.symm.trans hdirectory.2))] at hds
      exact h.directories cs hds

/-- **So does a whole walk.** -/
theorem Walk.within_exec {actions : List WalkAction} {w : Walk}
    (hchains : catalogue.ShortChains serverNames)
    (hworld : ∀ a ∈ actions, catalogue.Tells servers a.io)
    (h : exec Walk.step (.start servers serverNames) actions = some w) :
    w.Within catalogue servers serverNames := by
  refine @run_induction _ _ Walk.step (.start servers serverNames)
    (fun a ↦ catalogue.Tells servers a.io)
    (fun _ w ↦ w.Within catalogue servers serverNames) (within_start _ _ _) ?_ actions hworld w h
  exact fun _ _ _ _ hw ha hstep ↦ hw.step hchains ha hstep

end Runs

/-! ### Walks that end -/

section Finite

variable {catalogue : Catalogue} {serverNames : List Str}

/-- The path of a list of texts. -/
def pathOfTexts : List Str → Str
  | [] => rucioRootPath
  | t :: ts => (t :: ts).flatMap fun text ↦ '/' :: text

theorem pathOf_eq (cs : List Component) : pathOf cs = pathOfTexts (cs.map Component.text) := by
  rcases cs with - | ⟨c, cs⟩
  · rfl
  · simp [pathOf, pathOfTexts, mkPath, pathBody, List.flatMap_map]

/-- The names that paths are made of. -/
def Catalogue.alphabet (catalogue : Catalogue) (serverNames : List Str) : Set Str :=
  cStr '' ({name | name ∈ serverNames} ∪ {name | ∃ query, catalogue.shows query name})

theorem Catalogue.finite_alphabet (catalogue : Catalogue) (serverNames : List Str) :
    (catalogue.alphabet serverNames).Finite :=
  (serverNames.finite_toSet.union catalogue.finite_names).image cStr

theorem Catalogue.Lists.mem_alphabet {query : Query} {name : Str}
    (h : catalogue.Lists query name) : cStr name ∈ catalogue.alphabet serverNames := by
  obtain ⟨other, -, hshows⟩ := h
  exact ⟨name, Or.inr ⟨other, hshows⟩, rfl⟩

/-- A chain is made of these names. -/
theorem Catalogue.Placed.mem_alphabet {cs : List Component}
    (h : catalogue.Placed serverNames cs) :
    ∀ text ∈ cs.map Component.text, text ∈ catalogue.alphabet serverNames := by
  induction h with
  | root => exact fun text htext ↦ absurd htext List.not_mem_nil
  | server _ htext hname =>
    intro text hmem
    rw [List.mem_singleton.1 hmem, htext]
    exact ⟨_, Or.inl hname, rfl⟩
  | scope _ _ htext hlists ih =>
    intro text hmem
    rcases List.mem_pair.1 hmem with rfl | rfl
    · exact ih _ (List.mem_singleton_self _)
    · exact htext ▸ hlists.mem_alphabet
  | did _ _ _ htext hlists ih =>
    intro text hmem
    rw [List.map_append] at hmem
    rcases List.mem_append.1 hmem with hold | hnew
    · exact ih text hold
    · rw [List.mem_singleton.1 hnew, htext]
      exact hlists.mem_alphabet

/-- **Walking the mount ends** as long as the chains of nested names are short: for every catalogue,
however many names it has, there are finitely many directories that a walk can find. -/
theorem directoryPaths_finite (catalogue : Catalogue) (servers : ServerMap)
    (serverNames : List Str) (hchains : catalogue.ShortChains serverNames) :
    (catalogue.directoryPaths servers serverNames).Finite := by
  have hfinite := Text.finite_of_length_lt (catalogue.finite_alphabet serverNames) (2 ^ 15)
  refine (hfinite.image pathOfTexts).subset ?_
  rintro path ⟨actions, w, cs, hworld, hrun, hcs, rfl⟩
  have hplaced := (Walk.within_exec hchains hworld hrun).directories cs hcs
  refine ⟨cs.map Component.text, ⟨?_, hplaced.mem_alphabet⟩, (pathOf_eq cs).symm⟩
  rw [List.length_map]
  exact hchains cs hplaced

end Finite

/-! ### A file in a container -/

/-- The catalogue of a server with the scope `x`, which has the container `c`, which has the file
`f`. -/
def nestedFile : Catalogue where
  shows query name := (query, name) ∈ [(.scopes ['s'], ['x']), (.dids ['s'] ['x'], ['c']),
    (.containerDids ['s'] ['x'] ['c'], ['f'])]
  container server scope name := [server, scope, name] = [['s'], ['x'], ['c']]
  residue text := text = []
  finite_names := Catalogue.finite_names_of_list _
  residue_nil := rfl

/-- Below the scope there is the container, and below it the file. -/
theorem length_of_placed_nestedFile {cs : List Component} (h : nestedFile.Placed [['s']] cs) :
    cs.length ≤ 3 ∨ cs.length = 4 ∧ ∀ d ∈ cs.getLast?, d.text = ['f'] := by
  induction h with
  | root | server | scope => exact Or.inl (by simp)
  | @did c e n cs name hdirectory _ _ htext hlists ih =>
    obtain ⟨other, hkey, hshows⟩ := hlists
    rw [listingOf] at hkey
    rcases cs.eq_nil_or_concat with rfl | ⟨ds, d, rfl⟩
    · exact Or.inl (by simp)
    · rw [List.concat_eq_append, List.getLast?_concat] at hkey
      simp only [nestedFile, List.mem_cons, List.not_mem_nil, or_false] at hshows
      rcases hshows with hshows | hshows | hshows
      · obtain ⟨rfl, rfl⟩ := Prod.mk.inj hshows
        exact absurd (congrArg Prod.fst hkey) CacheName.noConfusion
      · obtain ⟨rfl, rfl⟩ := Prod.mk.inj hshows
        exact absurd (congrArg Prod.fst hkey) CacheName.noConfusion
      · obtain ⟨rfl, rfl⟩ := Prod.mk.inj hshows
        have hlast : d.text ≠ ['f'] := by
          intro hd
          have hkey' := congrArg List.getLast? (congrArg Prod.snd hkey)
          simp [Query.cacheAndKey, cacheKey, hd] at hkey'
        rcases ih with hlength | ⟨-, hfile⟩
        · refine Or.inr ⟨?_, fun d' hd' ↦ ?_⟩
          · simp only [List.concat_eq_append, List.length_cons, List.length_append,
              List.length_nil] at hlength ⊢
            omega
          · rw [List.getLast?_concat, Option.mem_some] at hd'
            exact hd' ▸ htext
        · refine absurd (hfile d ?_) hlast
          rw [List.concat_eq_append, ← List.cons_append, ← List.cons_append, List.getLast?_concat]
          rfl

/-- Walks of that server end. -/
theorem directoryPaths_finite_nestedFile :
    (nestedFile.directoryPaths twoHolders [['s']]).Finite := by
  refine directoryPaths_finite nestedFile twoHolders [['s']] fun cs hcs ↦ ?_
  rcases length_of_placed_nestedFile hcs with hlength | ⟨hlength, -⟩
  · exact hlength.trans_lt (by decide)
  · exact hlength.trans_lt (by decide)

end FusePosix
