import FusePosix.Rest.Listing
import FusePosix.Utils.DidChunks

/-!
# Which DIDs are fully defined

Both structurizers default-initialise a `rucio_did` and assign its type and its size in nested
branches on the text of the record. Only the branch for a file assigns both. A container or a
dataset gets a type and no size, and a record of any other kind, an exception object among them,
gets neither.

The DIDs a body appends are those of the records up to the first one `map_did` cannot read
(`readRecords`), so they are all defined exactly if all these records are records of files. The loop
over a listing copies type and size into two caches, one DID after the other, and the caches stay
free of indeterminate values under the same condition (`bodyDefined_iff`).
-/

namespace FusePosix

/-! ### Appended DIDs -/

/-- The fields of the records of a body, up to the first record they cannot be read from. -/
def readRecords : List Str → List (Table Str Str)
  | [] => []
  | sdid :: didStrings =>
    match mapDid sdid with
    | .error _ => []
    | .ok mappedDid => mappedDid :: readRecords didStrings

/-- The fields the structurizers read from the chunks of a body. -/
def bodyRecords (remainder : Str) (chunks : List Str) : List (Table Str Str) :=
  readRecords (splitDidsAll remainder chunks []).2

/-- Type and size are assigned. -/
def RucioDid.Defined (did : RucioDid) : Prop :=
  did.type.isSome = true ∧ did.size.isSome = true

instance (did : RucioDid) : Decidable did.Defined := inferInstanceAs (Decidable (_ ∧ _))

/-- **A body that is parsed to its end appends the DIDs of the records it is read from.** -/
theorem fillDids_eq_ok {fill : Table Str Str → RucioDid} {records : List Str} :
    ∀ {target dids : List RucioDid}, fillDids mapDid fill records target = .ok dids →
      dids = target ++ (readRecords records).map fill := by
  induction records with
  | nil =>
    intro target dids h
    rw [← Except.ok.inj h, readRecords, List.map_nil, List.append_nil]
  | cons record records ih =>
    intro target dids h
    obtain ⟨mappedDid, hmap, h⟩ := bind_eq_ok.1 h
    rw [ih h, readRecords, hmap, List.map_cons, List.append_assoc, List.singleton_append]

theorem structurizeAll_eq_ok {fill : Table Str Str → RucioDid} {remainder remainder' : Str}
    {chunks : List Str} {dids : List RucioDid}
    (h : structurizeAll (structurizeWith mapDid fill) remainder chunks [] =
      .ok (remainder', dids)) :
    dids = (bodyRecords remainder chunks).map fill := by
  rw [structurizeAll_eq] at h
  obtain ⟨filled, hfilled, hret⟩ := bind_eq_ok.1 h
  obtain ⟨-, rfl⟩ := Prod.mk.inj (Except.ok.inj hret)
  rw [fillDids_eq_ok hfilled, List.nil_append, bodyRecords]

/-- **Only the record of a file assigns both.** -/
theorem typeAndSize_isSome_iff (mappedDid : Table Str Str) :
    ((typeAndSize mappedDid).1.isSome = true ∧ (typeAndSize mappedDid).2.isSome = true) ↔
      field mappedDid "type".toList = "FILE".toList := by
  rw [typeAndSize]
  split_ifs with hfile hcontainer hdataset
  · exact iff_of_true ⟨rfl, rfl⟩ hfile
  · exact iff_of_false (fun h ↦ absurd h.2 Bool.false_ne_true) hfile
  · exact iff_of_false (fun h ↦ absurd h.2 Bool.false_ne_true) hfile
  · exact iff_of_false (fun h ↦ absurd h.1 Bool.false_ne_true) hfile

/-! ### Stored values -/

/-- Both caches hold values that were assigned. -/
structure State.DefinedCaches (s : State) : Prop where
  isContainer : ∀ key value, s.isContainerCache.find key = some value → value.isSome = true
  fileSize : ∀ key value, s.fileSizeCache.find key = some value → value.isSome = true

section Stored

variable {server scope : Str} {s : State}

/-- A table of assigned values stays one exactly if the value stored is assigned. -/
theorem forall_isSome_insert_iff {α : Type} {t : Table Str (Option α)} {key : Str} {v : Option α}
    (h : ∀ k value, t.find k = some value → value.isSome = true) :
    (∀ k value, (t.insert key v).find k = some value → value.isSome = true) ↔
      v.isSome = true := by
  refine ⟨fun hall ↦ hall key v (Table.find_insert_self t key v), fun hv k value hfind ↦ ?_⟩
  rw [Table.find_insert] at hfind
  split_ifs at hfind with hkey
  · exact Option.some.inj hfind ▸ hv
  · exact h k value hfind

/-- One turn of the loop. -/
theorem definedCaches_primeLookup_iff (h : s.DefinedCaches) (did : RucioDid) :
    (s.primeLookup server scope did).DefinedCaches ↔ did.Defined := by
  have htype : (did.type.map fun type ↦ decide (type ≠ .rucioFile)).isSome = true ↔
      did.type.isSome = true := by
    rw [Option.isSome_map]
  have hcontainer := @forall_isSome_insert_iff _ _ (cacheKey [server, scope, did.name])
    (did.type.map fun type ↦ decide (type ≠ .rucioFile)) h.isContainer
  have hsize := @forall_isSome_insert_iff _ _ (cacheKey [server, scope, did.name]) did.size
    h.fileSize
  exact ⟨fun hnext ↦ ⟨htype.1 (hcontainer.1 hnext.isContainer), hsize.1 hnext.fileSize⟩,
    fun hdid ↦ ⟨hcontainer.2 (htype.2 hdid.1), hsize.2 hdid.2⟩⟩

/-- The whole loop over defined DIDs. -/
theorem definedCaches_primeLookups {dids : List RucioDid} (hdids : ∀ did ∈ dids, did.Defined)
    (h : s.DefinedCaches) : (s.primeLookups server scope dids).DefinedCaches := by
  induction dids generalizing s with
  | nil => exact h
  | cons did dids ih =>
    refine ih (fun other hother ↦ hdids other (List.mem_cons_of_mem _ hother)) ?_
    exact (definedCaches_primeLookup_iff h did).2 (hdids did List.mem_cons_self)

end Stored

/-! ### Bodies -/

/-- **What is asked of a body.** It may begin behind the rest of an earlier one. -/
structure BodyDefined (remainder : Str) (chunks : List Str) : Prop where
  /-- Every DID either structurizer appends has a type and a size. -/
  appended : ∀ fill ∈ [didOfMap, containerDidOfMap],
    ∀ did ∈ (bodyRecords remainder chunks).map fill, did.Defined
  /-- The loops of both listings never store an indeterminate value, in whatever state they start:
  behind every turn the caches are as defined as before. -/
  stored : ∀ structurize ∈ [structurizeDid, structurizeContainerDid],
    ∀ remainder' dids, structurizeAll structurize remainder chunks [] = .ok (remainder', dids) →
      ∀ (server scope : Str) (s : State), s.DefinedCaches →
        ∀ n, (s.primeLookups server scope (dids.take n)).DefinedCaches

/-- **When the DIDs of a body are fully defined**: exactly if every record that is read from it has
the type of a file. -/
theorem bodyDefined_iff (remainder : Str) (chunks : List Str) : BodyDefined remainder chunks ↔
    ∀ mappedDid ∈ bodyRecords remainder chunks,
      field mappedDid "type".toList = "FILE".toList := by
  have hfill : ∀ fill ∈ [didOfMap, containerDidOfMap], ∀ mappedDid,
      (fill mappedDid).Defined ↔ field mappedDid "type".toList = "FILE".toList := by
    intro fill hfill mappedDid
    rcases List.mem_pair.1 hfill with rfl | rfl
    · exact typeAndSize_isSome_iff mappedDid
    · exact typeAndSize_isSome_iff mappedDid
  refine ⟨fun h mappedDid hmem ↦ ?_, fun h ↦ ?_⟩
  · have hdid := h.appended didOfMap List.mem_cons_self _ (List.mem_map_of_mem hmem)
    exact (hfill didOfMap List.mem_cons_self mappedDid).1 hdid
  have happended : ∀ fill ∈ [didOfMap, containerDidOfMap],
      ∀ did ∈ (bodyRecords remainder chunks).map fill, did.Defined := by
    intro fill hmem did hdid
    obtain ⟨mappedDid, hread, rfl⟩ := List.mem_map.1 hdid
    exact (hfill fill hmem mappedDid).2 (h mappedDid hread)
  refine ⟨happended, fun structurize hstructurize remainder' dids hparse server scope s hs n ↦ ?_⟩
  have hdids : ∀ did ∈ dids, did.Defined := by
    rcases List.mem_pair.1 hstructurize with rfl | rfl
    · exact structurizeAll_eq_ok hparse ▸ happended didOfMap (by simp)
    · exact structurizeAll_eq_ok hparse ▸ happended containerDidOfMap (by simp)
  exact definedCaches_primeLookups (fun did hdid ↦ hdids did (List.mem_of_mem_take hdid)) hs

/-- The record of a container. -/
def containerRecord : Str :=
  ("\x7b\"scope\": \"s\", \"name\": \"c\", " ++
    "\"type\": \"CONTAINER\", \"bytes\": null\x7d").toList

/-- **A container is listed without a size.** -/
theorem container_not_defined : ¬ BodyDefined [] [containerRecord] := by
  intro h
  have happended := h.appended didOfMap List.mem_cons_self
  exact absurd happended (by decide +kernel)

end FusePosix
