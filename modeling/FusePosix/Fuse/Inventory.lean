import FusePosix.Fuse.Walk
import FusePosix.Rest.Scopes
import FusePosix.Rest.Sizes

/-!
# What the servers have, and what the caches know of it

A mount is there to show what some servers have. An `Inventory` is that: the scopes of each server,
the names in a scope, the names in a container, and what each DID is. Below the root it is a tree of
directories and files (`Inventory.names`, `Inventory.Reachable`), in the terms of a file system and
not of requests and records.

`Inventory.Prints` says of a world that its servers print the inventory: every request for data is
answered, with the records and lists that Rucio writes, in any chunks that the parsers can read.
Requests for tokens may be answered in any way.

Then every entry of every cache is what the inventory says (`Inventory.Knows`), expired or not, and
each call of the client keeps this and returns what the inventory says. One thing the inventory
itself has to see to: no two of its scopes, and no two of its DIDs, have names that make up the same
cache key.
-/

namespace FusePosix

open Reassembly

/-! ### Inventories -/

/-- What a DID is. -/
inductive DidKind where
  | file (size : ℕ)
  | container
  | dataset
  deriving DecidableEq

/-- The type in the record of a DID. -/
def DidKind.type : DidKind → RucioDataType
  | .file _ => .rucioFile
  | .container => .rucioContainer
  | .dataset => .rucioDataset

/-- Whether a DID is shown as a directory. -/
def DidKind.isDirectory (kind : DidKind) : Bool := decide (kind.type ≠ .rucioFile)

/-- What the servers have. -/
structure Inventory where
  scopes : Component → List Component
  /-- The names in a scope of a server. -/
  dids : Component → Component → List Component
  /-- The names in a container, given by its server, its scope and its name. -/
  attached : Component → Component → Component → List Component
  /-- What the DID of a name is, if there is one. -/
  kind : Component → Component → Component → Option DidKind
  scopeName : ∀ c, ∀ e ∈ scopes c, ScopeName e.text
  isSome_of_dids : ∀ c e, ∀ n ∈ dids c e, (kind c e n).isSome
  isSome_of_attached : ∀ c e d, ∀ n ∈ attached c e d, (kind c e n).isSome
  /-- Sizes fit an `int`. -/
  size_lt : ∀ c e n size, kind c e n = some (.file size) → size < 2 ^ 31
  scope_inj : ∀ c e c' e', e ∈ scopes c → e' ∈ scopes c' →
    cacheKey [c.text, e.text] = cacheKey [c'.text, e'.text] → c = c' ∧ e = e'
  did_inj : ∀ c e n c' e' n', (kind c e n).isSome → (kind c' e' n').isSome →
    cacheKey [c.text, e.text, n.text] = cacheKey [c'.text, e'.text, n'.text] →
      c = c' ∧ e = e' ∧ n = n'

namespace Inventory

/-- The DID at a path, if it leads below a scope. -/
def kindAt (inventory : Inventory) : List Component → Option DidKind
  | c :: e :: cs => cs.getLast?.bind (inventory.kind c e)
  | _ => none

/-- The names in a directory. -/
def names (inventory : Inventory) (serverNames : List Str) : List Component → List Str
  | [] => serverNames
  | [c] => (inventory.scopes c).map Component.text
  | c :: e :: cs =>
    match cs.getLast? with
    | none => (inventory.dids c e).map Component.text
    | some d =>
      if ((inventory.kind c e d).map DidKind.isDirectory).getD false then
        (inventory.attached c e d).map Component.text
      else []

/-- The number of links to a directory. Below a scope, files are not counted. -/
def links (inventory : Inventory) (serverNames : List Str) : List Component → ℕ
  | [] => 2 + serverNames.length
  | [c] => 2 + (inventory.scopes c).length
  | c :: e :: cs =>
    match cs.getLast? with
    | none => 2 + (inventory.dids c e).length
    | some d => 2 + (inventory.attached c e d).countP fun n ↦
        ((inventory.kind c e n).map DidKind.isDirectory).getD false

/-- The attributes of a path. -/
def attributes (inventory : Inventory) (serverNames : List Str) (io : Io) (st : Stat)
    (cs : List Component) : Stat :=
  match inventory.kindAt cs with
  | some (.file size) => { st.stamped io with mode := fileMode, nlink := 1, size }
  | _ => { st.stamped io with
      mode := directoryMode, nlink := inventory.links serverNames cs }

/-- What a directory shows. Of a file nothing is shown, not even the two entries that every
directory has. -/
def listing (inventory : Inventory) (serverNames : List Str) (cs : List Component) : List Str :=
  match inventory.kindAt cs with
  | some (.file _) => []
  | _ => finalizeFiller (inventory.names serverNames cs)

/-- **The tree below the root**: whatever is in a directory, except for the names that the callbacks
do not look up. -/
inductive Reachable (inventory : Inventory) (serverNames : List Str) : List Component → Prop
  | root : Reachable inventory serverNames []
  | entry {cs : List Component} {n : Component} (hdirectory : Reachable inventory serverNames cs)
      (hplain : n.Plain) (hmem : n.text ∈ inventory.names serverNames cs) :
      Reachable inventory serverNames (cs ++ [n])

/-- If a path leads below a scope, the server has that scope, and no DID that is not at the path has
the cache key of the path. There need not be a DID at the path. -/
def Lookable (inventory : Inventory) (cs : List Component) : Prop :=
  ∀ c e ds d, cs = c :: e :: (ds ++ [d]) → e ∈ inventory.scopes c ∧
    ∀ c' e' n, (inventory.kind c' e' n).isSome →
      cacheKey [c'.text, e'.text, n.text] = cacheKey [c.text, e.text, d.text] →
        c' = c ∧ e' = e ∧ n = d

/-! ### Worlds that print an inventory -/

/-- A record says what the DID of a name is. -/
structure Says (inventory : Inventory) (c e n : Component) (r : DidRecord) : Prop where
  name : r.value? "name".toList = some n.text
  kind : ∃ kind, inventory.kind c e n = some kind ∧
    r.value? "type".toList = some kind.type.word ∧
      ∀ size, kind = .file size → r.Number "bytes".toList size

/-- A payload is the records of some names, one in a line, cut anywhere. -/
def PrintsDids (inventory : Inventory) (c e : Component) (shown : List Component)
    (payload : List Str) : Prop :=
  ∃ (records : List DidRecord) (final : Bool),
    List.Forall₂ (inventory.Says c e) shown records ∧
      payload.flatten = joined didMarks (records.map DidRecord.text) final

/-- A payload is the record of one DID, cut where the lookups can bear it. -/
def PrintsDid (inventory : Inventory) (c e n : Component) (kind : DidKind) (payload : List Str) :
    Prop :=
  ∃ (r : DidRecord) (final : Bool) (front : Str) (rest : List Str), inventory.Says c e n r ∧
    payload = front :: rest ∧ payload.flatten = joined didMarks [r.text] final ∧
      r.ShowsKind front kind.type ∧
        ∀ size, kind = .file size → (∃ f, r.SaysSize f size) ∧ HoldsSize payload size

/-- An answer to a request below the address of a server. -/
def Answers (servers : ServerMap) (io : Io) (c : Component) (resource : Str)
    (Good : List Str → Prop) : Prop :=
  ∀ (params : ConnectionParameters) (log : List Event) (request : Request),
    getServerParams servers c.text = some params →
    request.url = cStr (params.serverUrl ++ resource) →
      (io.net log request).ok = true ∧ Good (io.net log request).payload

/-- **A world prints an inventory**: its servers answer every request for data with what they have.
A name that is in a scope and no DID of it gets an answer in which the lookups find nothing. -/
structure Prints (inventory : Inventory) (servers : ServerMap) (io : Io) : Prop where
  scopes : ∀ c, Answers servers io c "/scopes/".toList fun payload ↦ ∃ newline,
    payload.flatten = pythonList newline ((inventory.scopes c).map Component.text) ∧
      CutBetween newline ((inventory.scopes c).map Component.text) payload
  dids : ∀ c, ∀ e ∈ inventory.scopes c,
    Answers servers io c (Query.dids c.text e.text).resource
      (inventory.PrintsDids c e (inventory.dids c e))
  attached : ∀ c e d kind, inventory.kind c e d = some kind → kind.isDirectory = true →
    Answers servers io c (Query.containerDids c.text e.text d.text).resource
      (inventory.PrintsDids c e (inventory.attached c e d))
  record : ∀ c e n kind, inventory.kind c e n = some kind →
    Answers servers io c (didResource e.text n.text) (inventory.PrintsDid c e n kind)
  missing : ∀ c, ∀ e ∈ inventory.scopes c, ∀ n, inventory.kind c e n = none →
    Answers servers io c (didResource e.text n.text) fun payload ↦
      (∀ front ∈ payload.head?, saysContainer front = false) ∧ sizeOfPayload payload = none

/-! ### What the caches know -/

/-- A DID of the client is that of a name. -/
structure Describes (inventory : Inventory) (c e n : Component) (d : RucioDid) : Prop where
  name : d.name = n.text
  kind : ∃ kind, inventory.kind c e n = some kind ∧ d.type = some kind.type ∧
    ∀ size, kind = .file size → d.size = some (size : ℤ)

/-- **Everything in the caches is what the servers have.** -/
structure Knows (inventory : Inventory) (servers : ServerMap) (serverNames : List Str)
    (s : State) : Prop where
  settings : SameSettings servers s.servers
  serverNames : s.serverNames = serverNames
  remainder : s.didStringRemainder = []
  scopes : ∀ c entry, s.scopesCache.find c.text = some entry →
    entry.2 = (inventory.scopes c).map Component.text
  dids : ∀ c, ∀ e ∈ inventory.scopes c, ∀ entry,
    s.didsCache.find (cacheKey [c.text, e.text]) = some entry →
      List.Forall₂ (inventory.Describes c e) (inventory.dids c e) entry.2
  attached : ∀ c e d, (inventory.kind c e d).isSome → ∀ entry,
    s.containerDidsCache.find (cacheKey [c.text, e.text, d.text]) = some entry →
      List.Forall₂ (inventory.Describes c e) (inventory.attached c e d) entry.2
  /-- The entries under paths are never found. -/
  kinds : ∀ key found, s.isContainerCache.find key = some found → key.head? = some '/' ∨
    ∃ c e n kind, inventory.kind c e n = some kind ∧
      key = cacheKey [c.text, e.text, n.text] ∧ found = some kind.isDirectory
  sizes : ∀ c e n size, inventory.kind c e n = some (.file size) → ∀ found,
    s.fileSizeCache.find (cacheKey [c.text, e.text, n.text]) = some found →
      found = some (size : ℤ)

section Knows

variable {inventory : Inventory} {servers : ServerMap} {serverNames : List Str} {io : Io}
  {caller : Caller} {s t : State} {c e n : Component} {params : ConnectionParameters}

/-! ### Reading what is printed -/

theorem isDirectory_eq_false_iff {kind : DidKind} :
    kind.isDirectory = false ↔ ∃ size, kind = .file size := by
  cases kind <;> simp [DidKind.isDirectory, DidKind.type]

/-- A list of scopes that is cut between its names is read. -/
theorem tokenizeAll_of_cutBetween {newline : Bool} {names chunks : List Str}
    (hnames : ∀ name ∈ names, ScopeName name) (hchunks : chunks.flatten = pythonList newline names)
    (hcut : CutBetween newline names chunks) : tokenizeAll chunks [] = .ok names := by
  refine tokenizeAll_eq_ok_iff.2 ⟨hcut.long, ?_⟩
  rw [List.nil_append]
  rcases names with - | ⟨name, names⟩
  · obtain rfl := hcut.shown.resolve_left fun hne ↦ hne rfl
    exact (flatMap_elementsOfChunk_of_length_le hcut.long (by rw [hchunks]; decide)).symm
  · have hlead : Lead ['['] := ⟨by decide, by simp [Dropped]⟩
    rw [pythonList_cons] at hchunks
    exact (elementsOf_items hnames hcut.toCleanEdges hlead hchunks).symm

/-- What the parser makes of a record is the DID it is of. -/
theorem Says.describes {r : DidRecord} (h : inventory.Says c e n r) {didMap : Table Str Str}
    (hfind : ∀ key, didMap.find key = r.value? key) {d : RucioDid}
    (hname : d.name = field didMap "name".toList) (htype : d.type = (typeAndSize didMap).1)
    (hsize : d.size = (typeAndSize didMap).2) : inventory.Describes c e n d := by
  obtain ⟨kind, hkind, htypeValue, hbytes⟩ := h.kind
  have htypeField : field didMap "type".toList = kind.type.word := by
    rw [field, hfind, htypeValue, Option.getD_some]
  refine ⟨?_, kind, hkind, htype.trans (typeAndSize_fst htypeField), ?_⟩
  · rw [hname, field, hfind, h.name, Option.getD_some]
  · rintro size rfl
    exact hsize.trans (typeAndSize_snd_number hfind htypeField (hbytes size rfl))

/-- A structurizer that takes the name, the type and the size from the fields. -/
structure Fills (fill : Table Str Str → RucioDid) : Prop where
  name : ∀ didMap, (fill didMap).name = field didMap "name".toList
  type : ∀ didMap, (fill didMap).type = (typeAndSize didMap).1
  size : ∀ didMap, (fill didMap).size = (typeAndSize didMap).2

theorem fills_didOfMap : Fills didOfMap := ⟨fun _ ↦ rfl, fun _ ↦ rfl, fun _ ↦ rfl⟩

theorem fills_containerDidOfMap : Fills containerDidOfMap :=
  ⟨fun _ ↦ rfl, fun _ ↦ rfl, fun _ ↦ rfl⟩

/-- The loop over the records of a listing. -/
theorem fillDids_says {fill : Table Str Str → RucioDid} (hfill : Fills fill)
    {shown : List Component} {records : List DidRecord}
    (h : List.Forall₂ (inventory.Says c e) shown records) (target : List RucioDid) :
    ∃ dids, fillDids mapDid fill (records.map DidRecord.text) target = .ok (target ++ dids) ∧
      List.Forall₂ (inventory.Describes c e) shown dids := by
  induction h generalizing target with
  | nil => exact ⟨[], by rw [List.append_nil]; rfl, .nil⟩
  | @cons n r shown records hsays _ ih =>
    obtain ⟨didMap, hmap, hfind⟩ := mapDid_text r
    obtain ⟨dids, hrun, hdids⟩ := ih (target ++ [fill didMap])
    refine ⟨fill didMap :: dids, ?_, .cons ?_ hdids⟩
    · rw [List.map_cons, fillDids, hmap, ok_bind, hrun, List.append_assoc, List.singleton_append]
    · exact hsays.describes hfind (hfill.name _) (hfill.type _) (hfill.size _)

/-- **A printed listing is read**, whatever the chunks are, and nothing is left over. -/
theorem PrintsDids.structurizeAll {fill : Table Str Str → RucioDid} (hfill : Fills fill)
    {shown : List Component} {payload : List Str} (h : inventory.PrintsDids c e shown payload) :
    ∃ dids, FusePosix.structurizeAll (structurizeWith mapDid fill) [] payload [] =
        .ok ([], dids) ∧ List.Forall₂ (inventory.Describes c e) shown dids := by
  obtain ⟨records, final, hsays, hpayload⟩ := h
  have hflat : ∀ r ∈ records.map DidRecord.text, Flat didMarks r := by
    intro r hr
    obtain ⟨record, -, rfl⟩ := List.mem_map.1 hr
    exact flat_text record
  obtain ⟨dids, hrun, hdids⟩ := fillDids_says hfill hsays []
  refine ⟨dids, ?_, hdids⟩
  rw [structurizeAll_joined hflat final hpayload, hrun]
  rfl

/-- The names of a listing. -/
theorem map_name {shown : List Component} {dids : List RucioDid}
    (h : List.Forall₂ (inventory.Describes c e) shown dids) :
    dids.map RucioDid.name = shown.map Component.text := by
  induction h with
  | nil => rfl
  | cons hd _ ih => rw [List.map_cons, List.map_cons, hd.name, ih]

/-- A printed record says whether the DID is a directory. -/
theorem PrintsDid.saysContainer {kind : DidKind} {payload : List Str}
    (h : inventory.PrintsDid c e n kind payload) :
    ∃ front rest, payload = front :: rest ∧ FusePosix.saysContainer front = kind.isDirectory := by
  obtain ⟨r, final, front, rest, -, rfl, hpayload, hshows, -⟩ := h
  refine ⟨front, rest, rfl, Bool.eq_iff_iff.2 ?_⟩
  rw [((says_iff_shows hpayload).2 hshows).1, DidKind.isDirectory, decide_eq_true_iff]

/-- A printed record of a file says how large it is. -/
theorem PrintsDid.sizeOfPayload {size : ℕ} {payload : List Str} (hsize : size < 2 ^ 31)
    (h : inventory.PrintsDid c e n (.file size) payload) :
    FusePosix.sizeOfPayload payload = some (size : ℤ) := by
  obtain ⟨r, final, front, rest, -, -, hpayload, -, hbytes⟩ := h
  obtain ⟨⟨f, hf⟩, hholds⟩ := hbytes size rfl
  exact (sizeOfPayload_eq_iff hf (by omega) hpayload).2 ⟨hsize, hholds⟩

/-! ### Calls of the client -/

theorem Knows.quiet (h : inventory.Knows servers serverNames s) (hquiet : Quiet s t)
    (hnames : t.serverNames = s.serverNames) : inventory.Knows servers serverNames t where
  settings := h.settings.trans hquiet.settings
  serverNames := hnames.trans h.serverNames
  remainder := hquiet.remainder.trans h.remainder
  scopes := hquiet.scopes ▸ h.scopes
  dids := hquiet.dids ▸ h.dids
  attached := hquiet.containerDids ▸ h.attached
  kinds := hquiet.isContainer ▸ h.kinds
  sizes := hquiet.fileSize ▸ h.sizes

theorem Knows.note (h : inventory.Knows servers serverNames s) (event : Event) :
    inventory.Knows servers serverNames (s.note event) :=
  ⟨h.settings, h.serverNames, h.remainder, h.scopes, h.dids, h.attached, h.kinds, h.sizes⟩

theorem Knows.exchanged (h : inventory.Knows servers serverNames s) {server resource : Str}
    {payload : Option (List Str)} (hexchanged : Exchanged io server resource caller s payload t) :
    inventory.Knows servers serverNames t :=
  h.quiet hexchanged.quiet hexchanged.serverNames

/-- **A loaded server answers**, as it should. -/
theorem Answers.exchanged (hsettings : SameSettings servers s.servers) {resource : Str}
    {Good : List Str → Prop} (hanswers : Answers servers io c resource Good)
    (hparams : getServerParams servers c.text = some params) {payload : Option (List Str)}
    (h : Exchanged io c.text resource caller s payload t) :
    ∃ chunks, payload = some chunks ∧ Good chunks := by
  have hsame := hsettings.getServerParams c.text
  have hasked : ∀ {request s₁}, Asked io c.text resource caller s request s₁ →
      (io.net s₁.log request).ok = true ∧ Good (io.net s₁.log request).payload := by
    intro request s₁ hasked
    obtain ⟨fields, -, params', hparams', rfl⟩ := hasked.headers
    exact hanswers params' _ _ (hsame.symm.trans hparams') rfl
  cases h with
  | unloaded hserver => exact absurd ((hserver.symm.trans hsame).trans hparams) (by simp)
  | failed h hok => exact absurd ((hasked h).1.symm.trans hok) (by decide)
  | answered h => exact ⟨_, rfl, (hasked h).2⟩

/-- The scopes of a server. -/
theorem Knows.rucioListScopes (h : inventory.Knows servers serverNames s)
    (hio : inventory.Prints servers io) (hparams : getServerParams servers c.text = some params)
    {scopes : List Str} (hrun : FusePosix.rucioListScopes io c.text caller s = .ok (scopes, t)) :
    inventory.Knows servers serverNames t ∧
      scopes = (inventory.scopes c).map Component.text := by
  rcases rucioListScopes_eq_ok hrun with ⟨hfetch, -⟩ | ⟨expiry, hfound, -, rfl⟩
  · obtain ⟨payload, s₁, hexchanged, hend⟩ := fetchScopes_eq_ok hfetch
    obtain ⟨chunks, rfl, newline, hchunks, hcut⟩ :=
      (hio.scopes c).exchanged h.settings hparams hexchanged
    have h₁ := h.exchanged hexchanged
    have hnames : ∀ name ∈ (inventory.scopes c).map Component.text, ScopeName name := by
      intro name hname
      obtain ⟨e, he, rfl⟩ := List.mem_map.1 hname
      exact inventory.scopeName c e he
    obtain ⟨chunks', heq, hparse, rfl⟩ := hend.resolve_left fun hnone ↦ nomatch hnone.1
    obtain rfl := Option.some.inj heq
    obtain rfl := Except.ok.inj (hparse.symm.trans (tokenizeAll_of_cutBetween hnames hchunks hcut))
    refine ⟨⟨h₁.settings, h₁.serverNames, h₁.remainder, ?_, h₁.dids, h₁.attached, h₁.kinds,
      h₁.sizes⟩, rfl⟩
    intro c' entry hentry
    have hinsert : (s₁.scopesCache.insert c.text (io.now + chacheDuration,
      (inventory.scopes c).map Component.text)).find c'.text = some entry := hentry
    rw [Table.find_insert] at hinsert
    split_ifs at hinsert with hc
    · obtain rfl := Component.eq_of_text hc
      rw [← Option.some.inj hinsert]
    · exact h₁.scopes c' entry hinsert
  · exact ⟨h.note _, h.scopes c _ hfound⟩

/-- What a listing notes about its DIDs is what they are. -/
theorem Knows.primeLookups {shown : List Component} {dids : List RucioDid}
    (hdids : List.Forall₂ (inventory.Describes c e) shown dids) : ∀ {s : State},
    inventory.Knows servers serverNames s →
      inventory.Knows servers serverNames (s.primeLookups c.text e.text dids) := by
  induction hdids with
  | nil => exact fun h ↦ h
  | @cons n d shown dids hd _ ih =>
    intro s h
    obtain ⟨kind, hkind, htype, hsize⟩ := hd.kind
    have hsome : (inventory.kind c e n).isSome := by rw [hkind]; rfl
    refine @ih (s.primeLookup c.text e.text d) ⟨h.settings, h.serverNames, h.remainder, h.scopes,
      h.dids, h.attached, ?_, ?_⟩
    · intro key found hfound
      have hinsert : (s.isContainerCache.insert (cacheKey [c.text, e.text, d.name])
          (d.type.map fun type ↦ decide (type ≠ .rucioFile))).find key = some found := hfound
      rw [Table.find_insert, hd.name] at hinsert
      split_ifs at hinsert with hkey
      · refine Or.inr ⟨c, e, n, kind, hkind, hkey, ?_⟩
        rw [← Option.some.inj hinsert, htype]
        rfl
      · exact h.kinds key found hinsert
    · intro c' e' n' size hkind' found hfound
      have hinsert : (s.fileSizeCache.insert (cacheKey [c.text, e.text, d.name]) d.size).find
        (cacheKey [c'.text, e'.text, n'.text]) = some found := hfound
      rw [Table.find_insert, hd.name] at hinsert
      split_ifs at hinsert with hkey
      · obtain ⟨rfl, rfl, rfl⟩ :=
          inventory.did_inj _ _ _ _ _ _ (by rw [hkind']; rfl) hsome hkey
        obtain rfl := Option.some.inj (hkind.symm.trans hkind')
        rw [← Option.some.inj hinsert, hsize size rfl]
      · exact h.sizes c' e' n' size hkind' found hinsert

/-- What both DID listings do once they have to fetch. -/
theorem Knows.fetchDids (h : inventory.Knows servers serverNames s) {resource : Str}
    {shown : List Component} (hanswers : Answers servers io c resource
      (inventory.PrintsDids c e shown))
    (hparams : getServerParams servers c.text = some params)
    {fill : Table Str Str → RucioDid} (hfill : Fills fill)
    {store : State → ℤ × List RucioDid → State} {dids : List RucioDid}
    (hrun : FusePosix.fetchDids io c.text e.text resource caller (structurizeWith mapDid fill)
      store s = .ok (dids, t)) :
    ∃ u expiry, inventory.Knows servers serverNames u ∧ t = store u (expiry, dids) ∧
      List.Forall₂ (inventory.Describes c e) shown dids := by
  obtain ⟨payload, s₁, hexchanged, hend⟩ := fetchDids_eq_ok hrun
  obtain ⟨chunks, rfl, hprints⟩ := hanswers.exchanged h.settings hparams hexchanged
  have h₁ := h.exchanged hexchanged
  obtain ⟨chunks', remainder, heq, hparse, rfl⟩ := hend.resolve_left fun hnone ↦ nomatch hnone.1
  obtain rfl := Option.some.inj heq
  obtain ⟨dids', hread, hdids⟩ := hprints.structurizeAll hfill
  rw [h₁.remainder, hread] at hparse
  obtain ⟨rfl, rfl⟩ := Prod.mk.inj (Except.ok.inj hparse)
  have hkept : inventory.Knows servers serverNames { s₁ with didStringRemainder := [] } :=
    ⟨h₁.settings, h₁.serverNames, rfl, h₁.scopes, h₁.dids, h₁.attached, h₁.kinds, h₁.sizes⟩
  exact ⟨_, _, hkept.primeLookups hdids, rfl, hdids⟩

/-- The DIDs of a scope. -/
theorem Knows.rucioListDids (h : inventory.Knows servers serverNames s)
    (hio : inventory.Prints servers io) (hparams : getServerParams servers c.text = some params)
    (he : e ∈ inventory.scopes c) {dids : List RucioDid}
    (hrun : FusePosix.rucioListDids io e.text c.text caller s = .ok (dids, t)) :
    inventory.Knows servers serverNames t ∧
      List.Forall₂ (inventory.Describes c e) (inventory.dids c e) dids := by
  rcases rucioListDids_eq_ok hrun with ⟨hfetch, -⟩ | ⟨expiry, hfound, -, rfl⟩
  · obtain ⟨u, expiry, hu, rfl, hdids⟩ :=
      h.fetchDids (hio.dids c e he) hparams fills_didOfMap hfetch
    refine ⟨⟨hu.settings, hu.serverNames, hu.remainder, hu.scopes, ?_, hu.attached, hu.kinds,
      hu.sizes⟩, hdids⟩
    intro c' e' he' entry hentry
    have hinsert : (u.didsCache.insert (cacheKey [c.text, e.text]) (expiry, dids)).find
      (cacheKey [c'.text, e'.text]) = some entry := hentry
    rw [Table.find_insert] at hinsert
    split_ifs at hinsert with hkey
    · obtain ⟨rfl, rfl⟩ := inventory.scope_inj _ _ _ _ he' he hkey
      rw [← Option.some.inj hinsert]
      exact hdids
    · exact hu.dids c' e' he' entry hinsert
  · exact ⟨h.note _, h.dids c e he _ hfound⟩

/-- The DIDs of a container. -/
theorem Knows.rucioListContainerDids (h : inventory.Knows servers serverNames s)
    (hio : inventory.Prints servers io) (hparams : getServerParams servers c.text = some params)
    {kind : DidKind} (hkind : inventory.kind c e n = some kind)
    (hdirectory : kind.isDirectory = true) {dids : List RucioDid}
    (hrun : FusePosix.rucioListContainerDids io e.text n.text c.text caller s = .ok (dids, t)) :
    inventory.Knows servers serverNames t ∧
      List.Forall₂ (inventory.Describes c e) (inventory.attached c e n) dids := by
  have hsome : (inventory.kind c e n).isSome := by rw [hkind]; rfl
  rcases rucioListContainerDids_eq_ok hrun with ⟨hfetch, -⟩ | ⟨expiry, hfound, -, rfl⟩
  · obtain ⟨u, expiry, hu, rfl, hdids⟩ :=
      h.fetchDids (hio.attached c e n kind hkind hdirectory) hparams fills_containerDidOfMap hfetch
    refine ⟨⟨hu.settings, hu.serverNames, hu.remainder, hu.scopes, hu.dids, ?_, hu.kinds,
      hu.sizes⟩, hdids⟩
    intro c' e' n' hsome' entry hentry
    have hinsert : (u.containerDidsCache.insert (cacheKey [c.text, e.text, n.text])
      (expiry, dids)).find (cacheKey [c'.text, e'.text, n'.text]) = some entry := hentry
    rw [Table.find_insert] at hinsert
    split_ifs at hinsert with hkey
    · obtain ⟨rfl, rfl, rfl⟩ := inventory.did_inj _ _ _ _ _ _ hsome' hsome hkey
      rw [← Option.some.inj hinsert]
      exact hdids
    · exact hu.attached c' e' n' hsome' entry hinsert
  · exact ⟨h.note _, h.attached c e n hsome _ hfound⟩

/-- Keys begin with the name of a server, so no key is a path. -/
theorem head?_cacheKey_ne (c : Component) (names : List Str) :
    (cacheKey (c.text :: names)).head? ≠ some '/' := by
  obtain ⟨x, rest, hx⟩ := List.exists_cons_of_ne_nil c.ne_nil
  intro hhead
  have hslash : x = '/' := by simpa [cacheKey, hx] using hhead
  exact c.slash_notMem (hx ▸ hslash ▸ List.mem_cons_self)

/-- What the lookups take from a path below a scope. -/
theorem entityOfPath_deep (c e n : Component) (cs : List Component) :
    entityOfPath (mkPath (c :: e :: (cs ++ [n])) false) = .ok [c.text, e.text, n.text] := by
  rw [entityOfPath_mkPath, getLast_eq_getLastD, List.getLastD_concat]

/-- What is stored under a path is never found. -/
theorem Knows.setIsContainer (h : inventory.Knows servers serverNames s) {path : Str}
    (hpath : path.head? = some '/') (entity : Entity) (value : Bool) :
    inventory.Knows servers serverNames (s.setIsContainer entity path value) := by
  refine ⟨h.settings, h.serverNames, h.remainder, h.scopes, h.dids, h.attached, ?_, h.sizes⟩
  intro key found hfound
  have hinsert : (s.isContainerCache.insert path (some value)).find key = some found := hfound
  rw [Table.find_insert] at hinsert
  split_ifs at hinsert with hkey
  · exact Or.inl (hkey ▸ hpath)
  · exact h.kinds key found hinsert

/-- The size of a file may be stored, unless there is one. -/
theorem Knows.emplaceSize (h : inventory.Knows servers serverNames s) {bytes : ℕ}
    (hkind : inventory.kind c e n = some (.file bytes)) :
    inventory.Knows servers serverNames (s.emplaceSize [c.text, e.text, n.text] bytes) := by
  refine ⟨h.settings, h.serverNames, h.remainder, h.scopes, h.dids, h.attached, h.kinds, ?_⟩
  intro c' e' n' bytes' hbytes' found hfound
  have hemplace : (s.fileSizeCache.emplace (cacheKey [c.text, e.text, n.text])
    (some (bytes : ℤ))).find (cacheKey [c'.text, e'.text, n'.text]) = some found := hfound
  rw [Table.emplace] at hemplace
  split_ifs at hemplace with hthere
  · exact h.sizes c' e' n' bytes' hbytes' found hemplace
  · rw [Table.find_insert] at hemplace
    split_ifs at hemplace with hkey
    -- the key is that of the file, so it is the same file
    · obtain ⟨rfl, rfl, rfl⟩ := inventory.did_inj _ _ _ _ _ _ (by rw [hbytes']; rfl)
        (by rw [hkind]; rfl) hkey
      obtain ⟨rfl⟩ := DidKind.file.inj (Option.some.inj (hkind.symm.trans hbytes'))
      exact (Option.some.inj hemplace).symm
    · exact h.sizes c' e' n' bytes' hbytes' found hemplace

/-- **Whether there is a directory at a path**: exactly if the inventory has one there. -/
theorem Knows.rucioIsContainer (h : inventory.Knows servers serverNames s)
    (hio : inventory.Prints servers io) (hparams : getServerParams servers c.text = some params)
    {cs : List Component} (hlookable : inventory.Lookable (c :: e :: (cs ++ [n]))) {value : Bool}
    (hrun : FusePosix.rucioIsContainer io (mkPath (c :: e :: (cs ++ [n])) false) caller s =
      .ok (value, t)) :
    inventory.Knows servers serverNames t ∧
      value = ((inventory.kind c e n).map DidKind.isDirectory).getD false := by
  obtain ⟨he, halone⟩ := hlookable c e cs n rfl
  obtain ⟨scope, name, hentity, hend⟩ := rucioIsContainer_eq_ok hrun
  rw [extractServerName_mkPath] at hentity hend
  rw [entityOfPath_deep] at hentity
  obtain ⟨rfl, rfl⟩ : e.text = scope ∧ n.text = name := by simpa using hentity
  rcases hend with ⟨found, hfound, rfl, rfl⟩ | ⟨-, payload, s₁, hexchanged, hend⟩
  · refine ⟨h.note _, ?_⟩
    rcases h.kinds _ found hfound with hhead | ⟨c', e', n', kind, hkind, hkey, rfl⟩
    · exact absurd hhead (head?_cacheKey_ne c _)
    · obtain ⟨rfl, rfl, rfl⟩ := halone c' e' n' (by rw [hkind]; rfl) hkey.symm
      rw [hkind]
      rfl
  · have h₁ := h.exchanged hexchanged
    -- whatever the answer says is stored under the path
    have hstored := @Knows.setIsContainer _ _ _ _ h₁ (mkPath (c :: e :: (cs ++ [n])) false) rfl
      [c.text, e.text, n.text]
    rcases hkind : inventory.kind c e n with - | kind
    · obtain ⟨chunks, rfl, hhead, -⟩ :=
        (hio.missing c e he n hkind).exchanged h.settings hparams hexchanged
      obtain ⟨front, rest, heq, rfl, rfl⟩ := hend.resolve_left fun hnone ↦ nomatch hnone.1
      obtain rfl := Option.some.inj heq
      exact ⟨hstored _, hhead front rfl⟩
    · obtain ⟨chunks, rfl, hprints⟩ :=
        (hio.record c e n kind hkind).exchanged h.settings hparams hexchanged
      obtain ⟨front, rest, heq, rfl, rfl⟩ := hend.resolve_left fun hnone ↦ nomatch hnone.1
      obtain rfl := Option.some.inj heq
      obtain ⟨front', rest', heq, hsays⟩ := hprints.saysContainer
      obtain ⟨rfl, rfl⟩ := List.cons.inj heq
      exact ⟨hstored _, hsays⟩

/-- The record of a name that is no directory says its size, and an answer without a record says
none. -/
theorem Prints.exists_size (hio : inventory.Prints servers io)
    (hsettings : SameSettings servers s.servers)
    (hparams : getServerParams servers c.text = some params) (he : e ∈ inventory.scopes c)
    (hno : ((inventory.kind c e n).map DidKind.isDirectory).getD false = false)
    {payload : Option (List Str)}
    (hexchanged : Exchanged io c.text (didResource e.text n.text) caller s payload t) :
    ∃ chunks, payload = some chunks ∧
      ((inventory.kind c e n = none ∧ FusePosix.sizeOfPayload chunks = none) ∨
        ∃ bytes : ℕ, inventory.kind c e n = some (.file bytes) ∧
          FusePosix.sizeOfPayload chunks = some (bytes : ℤ)) := by
  rcases hkind : inventory.kind c e n with - | kind
  · obtain ⟨chunks, rfl, -, hnone⟩ := (hio.missing c e he n hkind).exchanged hsettings hparams
      hexchanged
    exact ⟨chunks, rfl, Or.inl ⟨rfl, hnone⟩⟩
  · rw [hkind, Option.map_some, Option.getD_some] at hno
    obtain ⟨bytes, rfl⟩ := isDirectory_eq_false_iff.1 hno
    obtain ⟨chunks, rfl, hprints⟩ := (hio.record c e n _ hkind).exchanged hsettings hparams
      hexchanged
    have hread := hprints.sizeOfPayload (inventory.size_lt c e n bytes hkind)
    exact ⟨chunks, rfl, Or.inr ⟨bytes, rfl, hread⟩⟩

/-- **The size at a path that is no directory**: that of the file, if there is one. -/
theorem Knows.rucioGetSize (h : inventory.Knows servers serverNames s)
    (hio : inventory.Prints servers io) (hparams : getServerParams servers c.text = some params)
    {cs : List Component} (hlookable : inventory.Lookable (c :: e :: (cs ++ [n])))
    (hno : ((inventory.kind c e n).map DidKind.isDirectory).getD false = false) {size : ℤ}
    (hrun : FusePosix.rucioGetSize io (mkPath (c :: e :: (cs ++ [n])) false) caller s =
      .ok (size, t)) :
    inventory.Knows servers serverNames t ∧
      ∀ bytes, inventory.kind c e n = some (.file bytes) → size = bytes := by
  obtain ⟨he, -⟩ := hlookable c e cs n rfl
  obtain ⟨scope, name, hentity, hend⟩ := rucioGetSize_eq_ok hrun
  rw [extractServerName_mkPath] at hentity hend
  rw [entityOfPath_deep] at hentity
  obtain ⟨rfl, rfl⟩ : e.text = scope ∧ n.text = name := by simpa using hentity
  rcases hend with ⟨found, hfound, rfl, rfl⟩ | ⟨-, payload, s₁, hexchanged, hend⟩
  · refine ⟨h.note _, fun bytes hbytes ↦ ?_⟩
    rw [h.sizes c e n bytes hbytes found hfound]
    rfl
  have h₁ := h.exchanged hexchanged
  obtain ⟨chunks, rfl, hread⟩ := hio.exists_size h.settings hparams he hno hexchanged
  rcases hend with ⟨heq, -⟩ | ⟨chunks', heq, hsize, -, rfl⟩ | ⟨chunks', heq, hsize, rfl⟩
  · exact nomatch heq
  -- nothing to read, so there is no DID
  · obtain rfl := Option.some.inj heq
    obtain ⟨hnone, -⟩ | ⟨bytes, -, hbytes⟩ := hread
    · exact ⟨h₁, fun bytes hbytes ↦ absurd (hnone.symm.trans hbytes) (by simp)⟩
    · exact absurd (hbytes.symm.trans hsize) (by simp)
  -- a size, which is stored
  · obtain rfl := Option.some.inj heq
    obtain ⟨-, hnone⟩ | ⟨bytes, hkind, hbytes⟩ := hread
    · exact absurd (hnone.symm.trans hsize) (by simp)
    · obtain rfl := Option.some.inj (hbytes.symm.trans hsize)
      refine ⟨h₁.emplaceSize hkind, fun bytes' hbytes' ↦ ?_⟩
      obtain ⟨rfl⟩ := DidKind.file.inj (Option.some.inj (hkind.symm.trans hbytes'))
      rfl

end Knows

end Inventory

end FusePosix
