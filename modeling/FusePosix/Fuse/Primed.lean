import FusePosix.Fuse.Naming
import FusePosix.Rest.Direct

/-!
# Listings prime the lookups

A listing that is fetched notes for each of its DIDs whether it is a container and how large it is.
It does so under the names it was asked for and the names it has parsed; a lookup, later on, gets
its names from a path. For the entries of the directory the names are the same
(`entityOfPath_entryPath`), so the lookup finds what the listing has noted.

The notes are stored one after the other, over whatever the caches hold. As long as no two DIDs of a
listing have the same name, no note is overwritten by a later one (`noted_of_mem`).
-/

namespace FusePosix

/-! ### What a listing notes -/

/-- What is noted about a DID of a directory. -/
def Noted (server scope : Str) (d : RucioDid) (s : State) : Prop :=
  s.isContainerCache.find (cacheKey [server, scope, d.name]) =
      some (d.type.map fun type ↦ decide (type ≠ .rucioFile)) ∧
    s.fileSizeCache.find (cacheKey [server, scope, d.name]) = some d.size

section Noted

variable {server scope : Str} {d other : RucioDid} {s : State}

/-- Keys below one scope differ as the names do. -/
theorem cacheKey_name_inj {name name' : Str}
    (h : cacheKey [server, scope, name] = cacheKey [server, scope, name']) : name = name' := by
  simpa [cacheKey] using h

/-- A DID is noted when its turn comes. -/
theorem noted_primeLookup : Noted server scope d (s.primeLookup server scope d) :=
  ⟨Table.find_insert_self _ _ _, Table.find_insert_self _ _ _⟩

/-- A note stays when the turn of another name comes. -/
theorem Noted.primeLookup (h : Noted server scope d s) (hne : d.name ≠ other.name) :
    Noted server scope d (s.primeLookup server scope other) := by
  have hkey : ¬ cacheKey [server, scope, d.name] = cacheKey [server, scope, other.name] :=
    fun e ↦ hne (cacheKey_name_inj e)
  refine ⟨Eq.trans ?_ h.1, Eq.trans ?_ h.2⟩
  · exact (Table.find_insert _ _ _ _).trans (if_neg hkey)
  · exact (Table.find_insert _ _ _ _).trans (if_neg hkey)

theorem Noted.primeLookups {dids : List RucioDid} : ∀ {s : State}, Noted server scope d s →
    d.name ∉ dids.map RucioDid.name → Noted server scope d (s.primeLookups server scope dids) := by
  induction dids with
  | nil => exact fun h _ ↦ h
  | cons other dids ih =>
    intro s h hname
    obtain ⟨hother, hrest⟩ := not_or.1 (mt List.mem_cons.2 hname)
    exact ih (h.primeLookup hother) hrest

/-- **Every DID of a listing without double names is noted**, whatever was stored before. -/
theorem noted_of_mem {dids : List RucioDid} : ∀ {s : State}, (dids.map RucioDid.name).Nodup →
    d ∈ dids → Noted server scope d (s.primeLookups server scope dids) := by
  induction dids with
  | nil => exact fun _ hd ↦ absurd hd List.not_mem_nil
  | cons other dids ih =>
    intro s hnodup hd
    obtain ⟨hnew, hrest⟩ := List.nodup_cons.1 hnodup
    rcases List.mem_cons.1 hd with rfl | hd
    · exact noted_primeLookup.primeLookups hnew
    · exact ih hrest hd

end Noted

/-! ### Fetching a listing -/

/-- A directory is listed, and the listing is not taken from the cache. -/
inductive Fetched (io : Io) (caller : Caller) (c e : Component) (s : State) :
    List Component → List RucioDid → State → Prop
  | dids {dids : List RucioDid} {t : State}
      (hstale : ∀ entry, s.didsCache.find (cacheKey [c.text, e.text]) = some entry →
        entry.1 < io.now)
      (h : rucioListDids io e.text c.text caller s = .ok (dids, t)) :
      Fetched io caller c e s [] dids t
  | containerDids {ds : List Component} {d : Component} {dids : List RucioDid} {t : State}
      (hstale : ∀ entry,
        s.containerDidsCache.find (cacheKey [c.text, e.text, d.text]) = some entry →
          entry.1 < io.now)
      (h : rucioListContainerDids io e.text d.text c.text caller s = .ok (dids, t)) :
      Fetched io caller c e s (ds ++ [d]) dids t

section Fetched

variable {io : Io} {caller : Caller} {c e : Component} {cs : List Component} {s t : State}
  {dids : List RucioDid} {d : RucioDid}

/-- A file of the parser has a size. -/
theorem exists_size_of_structurizeAll {fill : Table Str Str → RucioDid} {remainder remainder' : Str}
    {chunks : List Str} (hfill : ∀ didMap, (fill didMap).type = (typeAndSize didMap).1 ∧
      (fill didMap).size = (typeAndSize didMap).2)
    (h : structurizeAll (structurizeWith mapDid fill) remainder chunks [] =
      .ok (remainder', dids)) :
    ∀ d ∈ dids, d.type = some .rucioFile → ∃ size, d.size = some size := by
  refine forall_mem_of_structurizeAll (fun sdid didMap _ htype ↦ ?_)
    (fun _ hd ↦ absurd hd List.not_mem_nil) h
  rw [(hfill didMap).1, typeAndSize] at htype
  rw [(hfill didMap).2, typeAndSize]
  split_ifs at htype ⊢ with hfile hcontainer hdataset
  · exact ⟨_, rfl⟩
  · cases htype
  · cases htype

/-- What a fetch leaves behind, if it brings anything. -/
theorem noted_of_fetchDids {server scope resource : Str} {fill : Table Str Str → RucioDid}
    {store : State → ℤ × List RucioDid → State}
    (h : fetchDids io server scope resource caller (structurizeWith mapDid fill) store s =
      .ok (dids, t))
    (hfill : ∀ didMap, (fill didMap).type = (typeAndSize didMap).1 ∧
      (fill didMap).size = (typeAndSize didMap).2)
    (hstore : ∀ u entry, (store u entry).isContainerCache = u.isContainerCache ∧
      (store u entry).fileSizeCache = u.fileSizeCache)
    (hnodup : (dids.map RucioDid.name).Nodup) :
    ∀ d ∈ dids, Noted server scope d t ∧ (d.type = some .rucioFile → ∃ n, d.size = some n) := by
  obtain ⟨payload, s₁, -, ⟨-, rfl, -⟩ | ⟨chunks, remainder, -, hparse, rfl⟩⟩ := fetchDids_eq_ok h
  · exact fun _ hd ↦ absurd hd List.not_mem_nil
  · intro d hd
    have hnoted : Noted server scope d (State.primeLookups _ server scope dids) :=
      noted_of_mem (s := { s₁ with didStringRemainder := remainder }) hnodup hd
    refine ⟨?_, exists_size_of_structurizeAll hfill hparse d hd⟩
    rw [Noted, (hstore _ _).1, (hstore _ _).2]
    exact hnoted

/-- **A fetched listing notes each of its DIDs.** -/
theorem Fetched.noted (h : Fetched io caller c e s cs dids t)
    (hnodup : (dids.map RucioDid.name).Nodup) :
    ∀ d ∈ dids, Noted c.text e.text d t ∧ (d.type = some .rucioFile → ∃ n, d.size = some n) := by
  cases h with
  | dids hstale h =>
    rcases rucioListDids_eq_ok h with ⟨hfetch, -⟩ | ⟨expiry, hfound, hfresh, -⟩
    · exact noted_of_fetchDids hfetch (fun _ ↦ ⟨rfl, rfl⟩) (fun _ _ ↦ ⟨rfl, rfl⟩) hnodup
    · exact absurd (hstale _ hfound) (Int.not_lt.2 hfresh)
  | containerDids hstale h =>
    rcases rucioListContainerDids_eq_ok h with ⟨hfetch, -⟩ | ⟨expiry, hfound, hfresh, -⟩
    · exact noted_of_fetchDids hfetch (fun _ ↦ ⟨rfl, rfl⟩) (fun _ _ ↦ ⟨rfl, rfl⟩) hnodup
    · exact absurd (hstale _ hfound) (Int.not_lt.2 hfresh)

/-- `rucio_is_container` of a DID. -/
def RucioDid.isContainer (io : Io) (d : RucioDid) : Bool :=
  io.readBool (d.type.map fun type ↦ decide (type ≠ .rucioFile))

/-- **Listing primes the lookups.** A listing of `/server/scope` or of a container below it is
fetched, whatever the caches hold before, and its DIDs have different names that can stand in a
path. Right after the call, and for every caller, the type and, for a file, the size of each of them
are answered as the listing says; nothing happens but that a cache entry is used. -/
theorem listing_primes_lookups (h : Fetched io caller c e s cs dids t)
    (hnodup : (dids.map RucioDid.name).Nodup)
    (hnames : ∀ d ∈ dids, d.name ≠ [] ∧ '/' ∉ d.name) (io' : Io) (caller' : Caller) :
    ∀ d ∈ dids,
      rucioIsContainer io' (entryPath (mkPath (c :: e :: cs) false) d.name) caller' t =
        .ok (d.isContainer io', t.note (.used .isContainer [c.text, e.text, d.name]
          (cacheKey [c.text, e.text, d.name]))) ∧
      (d.type = some .rucioFile → ∃ n, d.size = some n ∧
        rucioGetSize io' (entryPath (mkPath (c :: e :: cs) false) d.name) caller' t =
          .ok (n, t.note (.used .fileSize [c.text, e.text, d.name]
            (cacheKey [c.text, e.text, d.name])))) := by
  intro d hd
  obtain ⟨hne, hslash⟩ := hnames d hd
  obtain ⟨⟨hcontainer, hsize⟩, hfile⟩ := h.noted hnodup d hd
  have hentity := @entityOfPath_entryPath d.name c e cs hslash hne
  refine ⟨rucioIsContainer_of_cached hentity hcontainer, fun htype ↦ ?_⟩
  obtain ⟨n, hn⟩ := hfile htype
  rw [hn] at hsize
  exact ⟨n, hn, rucioGetSize_of_cached hentity hsize⟩

end Fetched

/-- The size of the only file of a scope, right after the scope has been listed. -/
theorem listing_primes_lookups_file : ∃ t n,
    rucioListDids (sampleAnswering [sampleRecord.text]) ['s'] ['s'] sampleCaller sampleHolder =
      .ok ([⟨['s'], some .rucioFile, ['f'], [], some 12, 0⟩], t) ∧
    rucioGetSize sampleIo samplePath sampleCaller t =
      .ok (n, t.note (.used .fileSize [['s'], ['s'], ['f']] ['s', 's', 'f'])) := by
  obtain ⟨t, h⟩ := @exists_of_map_fst_eq_ok _ _ (rucioListDids (sampleAnswering [sampleRecord.text])
    ['s'] ['s'] sampleCaller sampleHolder) [⟨['s'], some .rucioFile, ['f'], [], some 12, 0⟩]
    (by decide +kernel)
  have hfetched : Fetched (sampleAnswering [sampleRecord.text]) sampleCaller serverS
      serverS sampleHolder [] [⟨['s'], some .rucioFile, ['f'], [], some 12, 0⟩] t :=
    .dids (fun _ hentry ↦ nomatch hentry) h
  have hboth := listing_primes_lookups hfetched (by decide) (by decide) sampleIo sampleCaller _
    List.mem_cons_self
  obtain ⟨n, -, hsize⟩ := hboth.2 rfl
  exact ⟨t, n, h, hsize⟩

end FusePosix
