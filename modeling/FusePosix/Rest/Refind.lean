import FusePosix.Rest.Direct
import FusePosix.Rest.Failures
import FusePosix.Rest.Keys

/-!
# Whether a lookup finds what it has stored

The two lookups of a type keep what they find out. They look for it under server, scope and name
written one behind the other, and store it under the path. The one never has a slash and the other
always does (`cacheKey_ne_path`), so no lookup finds what a lookup has stored, and every call for a
path that nobody has listed sends a request again (`type_lookup_asks_again`).
-/

namespace FusePosix

/-! ### Keys -/

section Keys

variable {path name : Str} {entity : Entity}

/-- Nothing is left behind the first slash. -/
theorem slash_notMem_cutAtSlash (s : Str) : '/' ∉ cutAtSlash s := by
  rcases Text.notMem_or_exists_line '/' s with hnone | ⟨a, b, ha, rfl⟩
  · rwa [cutAtSlash, List.idxOf?_eq_none_iff.2 hnone]
  · rw [cutAtSlash, Text.idxOf?_append_cons ha]
    show '/' ∉ Text.eraseAt a.length (a ++ '/' :: b).length (a ++ '/' :: b)
    rwa [Text.eraseAt_length_self]

/-- Nothing is left before the last slash. -/
theorem slash_notMem_extractName (h : extractName path = .ok name) : '/' ∉ name := by
  obtain ⟨trimmed, -, hcut⟩ := bind_eq_ok.1 h
  by_cases hslash : '/' ∈ trimmed
  · obtain ⟨b, a, hcuts, hb⟩ := List.eq_append_cons_of_mem (List.mem_reverse.2 hslash)
    obtain rfl : trimmed = a.reverse ++ '/' :: b.reverse := by
      rw [← List.reverse_inj, hcuts]
      simp
    rw [Text.findLast_append_cons (by simpa using hb)] at hcut
    obtain rfl := Except.ok.inj hcut
    rw [Text.eraseAt_zero, Text.drop_append_cons]
    simpa using hb
  · have hnone : Text.findLast '/' trimmed = none := by
      rw [Text.findLast, List.idxOf?_eq_none_iff.2 (by simpa using hslash)]
      rfl
    rw [hnone] at hcut
    obtain rfl := Except.ok.inj hcut
    exact hslash

/-- **A key is not a path.** -/
theorem cacheKey_ne_path (h : entityOfPath path = .ok entity) (hslash : '/' ∈ path) :
    cacheKey entity ≠ path := by
  obtain ⟨scope, hscope, h⟩ := bind_eq_ok.1 h
  obtain ⟨name, hname, h⟩ := bind_eq_ok.1 h
  obtain rfl := Except.ok.inj h
  obtain ⟨relative, -, hcut⟩ := bind_eq_ok.1 hscope
  obtain rfl := Except.ok.inj hcut
  intro hkey
  rw [← hkey, cacheKey, List.mem_flatten] at hslash
  obtain ⟨part, hpart, hslash⟩ := hslash
  simp only [List.mem_cons, List.not_mem_nil, or_false] at hpart
  rcases hpart with rfl | rfl | rfl
  · exact slash_notMem_cutAtSlash _ hslash
  · exact slash_notMem_cutAtSlash _ hslash
  · exact slash_notMem_extractName hname hslash

end Keys

/-! ### Calls -/

/-- The two lookups of a type. -/
inductive TypeLookup where
  | isContainer
  | isFile
  deriving DecidableEq, Repr

namespace TypeLookup

def run : TypeLookup → Io → Str → Caller → State → Except Fault (Bool × State)
  | isContainer => rucioIsContainer
  | isFile => rucioIsFile

/-- The cache a lookup reads and writes. -/
def cache : TypeLookup → CacheName
  | isContainer => .isContainer
  | isFile => .isFile

end TypeLookup

/-- A call for the path returns the value, and sends no request. -/
def FindsAgain (lookup : TypeLookup) (io : Io) (path : Str) (caller : Caller) (t : State)
    (value : Bool) : Prop :=
  ∃ u, lookup.run io path caller t = .ok (value, u) ∧ lastAnswer io t u = none

/-- How a lookup goes: it finds an entry under its key, or asks and gets nothing, or asks and stores
what it gets under the path. -/
inductive TypeLookup.Runs (lookup : TypeLookup) (io : Io) (path : Str) (caller : Caller)
    (s : State) (entity : Entity) : State → Prop
  | found (hkey : s.hasKey lookup.cache (cacheKey entity) = true) :
      Runs lookup io path caller s entity
        (s.note (.used lookup.cache entity (cacheKey entity)))
  | refused {resource : Str} {s₁ : State}
      (hexchanged : Exchanged io (extractServerName path) resource caller s none s₁) :
      Runs lookup io path caller s entity s₁
  | stored {resource : Str} {chunks : List Str} {s₁ t : State}
      (hcold : s.hasKey lookup.cache (cacheKey entity) = false)
      (hexchanged : Exchanged io (extractServerName path) resource caller s (some chunks) s₁)
      (hstores : Stores s₁ t lookup.cache entity path) :
      Runs lookup io path caller s entity t

section Calls

variable {lookup : TypeLookup} {io : Io} {path server resource : Str} {caller : Caller}
  {s t : State} {entity : Entity} {value : Bool} {chunks : List Str}

theorem TypeLookup.runs_of_eq_ok (h : lookup.run io path caller s = .ok (value, t)) :
    ∃ entity, entityOfPath path = .ok entity ∧ lookup.Runs io path caller s entity t := by
  cases lookup with
  | isContainer =>
    obtain ⟨scope, name, hentity, hend⟩ := rucioIsContainer_eq_ok h
    refine ⟨_, hentity, ?_⟩
    rcases hend with ⟨found, hfound, -, rfl⟩ | ⟨hnone, payload, s₁, hexchanged, hend⟩
    · exact .found (Table.contains_eq_true.2 ⟨found, hfound⟩)
    · rcases hend with ⟨rfl, -, rfl⟩ | ⟨front, rest, rfl, rfl, rfl⟩
      · exact .refused hexchanged
      · exact .stored (congrArg Option.isSome hnone) hexchanged (stores_setIsContainer _ _ _)
  | isFile =>
    obtain ⟨scope, name, hentity, hend⟩ := rucioIsFile_eq_ok h
    refine ⟨_, hentity, ?_⟩
    rcases hend with ⟨hfound, rfl⟩ | ⟨hnone, payload, s₁, hexchanged, hend⟩
    · exact .found (Table.contains_eq_true.2 ⟨_, hfound⟩)
    · rcases hend with ⟨rfl, -, rfl⟩ | ⟨front, rest, rfl, rfl, rfl⟩
      · exact .refused hexchanged
      · exact .stored (congrArg Option.isSome hnone) hexchanged (stores_setIsFile _ _ _)

/-- An exchange that brings something is with a loaded server. -/
theorem Exchanged.loaded (h : Exchanged io server resource caller s (some chunks) t) :
    ∃ params, getServerParams s.servers server = some params := by
  cases h with
  | answered hasked =>
    obtain ⟨-, -, params, hparams, -⟩ := hasked.headers
    exact ⟨params, hparams⟩

/-- An exchange with a loaded server sends a request. -/
theorem Exchanged.lastAnswer_ne_none {payload : Option (List Str)}
    (h : Exchanged io server resource caller s payload t)
    (hloaded : getServerParams s.servers server ≠ none) : lastAnswer io s t ≠ none := by
  cases h with
  | unloaded hserver => exact absurd hserver hloaded
  | failed hasked =>
    rw [lastAnswer_note_sent hasked.quiet.log_suffix]
    exact Option.some_ne_none _
  | answered hasked =>
    rw [lastAnswer_note_sent hasked.quiet.log_suffix]
    exact Option.some_ne_none _

/-- A lookup without an entry under its key sends a request. -/
theorem TypeLookup.Runs.lastAnswer_ne_none (h : lookup.Runs io path caller s entity t)
    (hcold : s.hasKey lookup.cache (cacheKey entity) = false)
    (hloaded : getServerParams s.servers (extractServerName path) ≠ none) :
    lastAnswer io s t ≠ none := by
  cases h with
  | found hkey => exact absurd (hcold.symm.trans hkey) Bool.false_ne_true
  | refused hexchanged => exact hexchanged.lastAnswer_ne_none hloaded
  | stored _ hexchanged hstores =>
    rw [lastAnswer_of_stores hexchanged.quiet.log_suffix hstores]
    exact hexchanged.lastAnswer_ne_none hloaded

/-- **No lookup finds what it has stored.** Take any path with a slash, any state, and a lookup of
the type that has its answer from an exchange that did not fail. Then no call that follows, for
whatever caller and whatever the world answers, returns that answer without sending a request. -/
theorem type_lookup_asks_again {ret : CurlRet} (hslash : '/' ∈ path)
    (hcall : lookup.run io path caller s = .ok (value, t)) (hret : lastAnswer io s t = some ret)
    (hok : ret.ok = true) (io' : Io) (caller' : Caller) :
    ¬ FindsAgain lookup io' path caller' t value := by
  obtain ⟨entity, hentity, hrun⟩ := TypeLookup.runs_of_eq_ok hcall
  rintro ⟨u, hagain, hsilent⟩
  obtain ⟨entity', hentity', hrun'⟩ := TypeLookup.runs_of_eq_ok hagain
  obtain rfl := Except.ok.inj (hentity.symm.trans hentity')
  cases hrun with
  | found =>
    rw [lastAnswer_note_used] at hret
    cases hret
  | refused hexchanged =>
    exact absurd ((hexchanged.ok_eq_false hret).symm.trans hok) Bool.false_ne_true
  | @stored _ _ s₁ _ hcold hexchanged hstores =>
    refine hrun'.lastAnswer_ne_none ?_ ?_ hsilent
    · -- the new entry has another key
      rw [Bool.eq_false_iff]
      intro hkey
      rcases hstores.hasKey _ _ hkey with hold | ⟨-, hpath⟩
      · rw [hasKey_quiet hexchanged.quiet] at hold
        exact Bool.false_ne_true (hcold.symm.trans hold)
      · exact cacheKey_ne_path hentity hslash hpath
    · obtain ⟨params, hparams⟩ := hexchanged.loaded
      rw [hstores.servers, hexchanged.quiet.settings.getServerParams, hparams]
      exact Option.some_ne_none _

end Calls

/-! ### A sample -/

/-- A world in which the file `f` is a file. -/
def sampleFileIo : Io := sampleAnswering [sampleRecord.text]

/-- A lookup of the file `f` that sends a request and is told that it is a file. -/
theorem exists_sampleLookup : ∃ t,
    TypeLookup.isFile.run sampleFileIo samplePath sampleCaller sampleHolder = .ok (true, t) ∧
      lastAnswer sampleFileIo sampleHolder t = some ⟨0, [sampleRecord.text]⟩ ∧
      ((TypeLookup.isFile.run sampleFileIo samplePath sampleCaller t).toOption.map fun again ↦
        (again.1, lastAnswer sampleFileIo t again.2)) =
          some (true, some ⟨0, [sampleRecord.text]⟩) := by
  have hrun : ((TypeLookup.isFile.run sampleFileIo samplePath sampleCaller
      sampleHolder).toOption.map fun first ↦ (first.1, lastAnswer sampleFileIo sampleHolder first.2,
        (TypeLookup.isFile.run sampleFileIo samplePath sampleCaller first.2).toOption.map
          fun again ↦ (again.1, lastAnswer sampleFileIo first.2 again.2))) =
      some (true, some ⟨0, [sampleRecord.text]⟩, some (true, some ⟨0, [sampleRecord.text]⟩)) := by
    decide +kernel
  obtain ⟨⟨value, t⟩, hfirst, hseen⟩ := map_toOption_eq_some hrun
  obtain ⟨rfl, hseen⟩ := Prod.mk.inj hseen
  obtain ⟨hret, hagain⟩ := Prod.mk.inj hseen
  exact ⟨t, hfirst, hret, hagain⟩

/-- The answer about `f` is not found again. -/
theorem type_lookup_asks_again_sample : ∃ t,
    TypeLookup.isFile.run sampleFileIo samplePath sampleCaller sampleHolder = .ok (true, t) ∧
      ¬ FindsAgain .isFile sampleFileIo samplePath sampleCaller t true := by
  obtain ⟨t, hfirst, hret, -⟩ := exists_sampleLookup
  exact ⟨t, hfirst, type_lookup_asks_again (by decide) hfirst hret rfl sampleFileIo sampleCaller⟩

/-- **The second lookup of a path sends a second request.** -/
theorem not_findsAgain_sample :
    ¬ (∀ (lookup : TypeLookup) (cs : List Component) (trailing : Bool) (io io' : Io)
        (caller : Caller) (s t : State) (value : Bool) (ret : CurlRet), 3 ≤ cs.length →
        lookup.run io (mkPath cs trailing) caller s = .ok (value, t) →
        lastAnswer io s t = some ret → ret.ok = true →
        FindsAgain lookup io' (mkPath cs trailing) caller t value) := by
  intro hall
  obtain ⟨t, hfirst, hret, hagain⟩ := exists_sampleLookup
  obtain ⟨cs, hthree, hpath⟩ : ∃ cs : List Component, 3 ≤ cs.length ∧
      mkPath cs false = samplePath :=
    ⟨[⟨['s'], by decide, by decide, by decide⟩, ⟨['s'], by decide, by decide, by decide⟩,
      ⟨['f'], by decide, by decide, by decide⟩], by decide, by decide⟩
  obtain ⟨u, hrun, hsilent⟩ := hall .isFile cs false sampleFileIo sampleFileIo sampleCaller
    sampleHolder t true _ hthree (by rw [hpath]; exact hfirst) hret rfl
  rw [hpath] at hrun
  obtain ⟨⟨value, u'⟩, hrun', hseen⟩ := map_toOption_eq_some hagain
  obtain ⟨-, rfl⟩ := Prod.mk.inj (Except.ok.inj (hrun.symm.trans hrun'))
  cases hsilent.symm.trans (Prod.mk.inj hseen).2

end FusePosix
