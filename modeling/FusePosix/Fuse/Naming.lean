import FusePosix.Fuse.Reach
import FusePosix.Utils.PathAlgebra

/-!
# What a name in a directory stands for

A directory shows the names of DIDs. What comes back to the program is a path, and the scope of a
DID is not in it: `getDid`, and with it the lookups and the downloads, take the scope from the
second component, which is the scope of the directory. `listed_did_requested_iff` says for which
DIDs of a listing this is the scope they are listed with. A container may hold DIDs of other scopes,
and for these it is not (`foreign_did_requested`).

The text `scope:name` tells its two parts apart only if there is no colon in the scope. The parser
sees to that: it takes colons for separators (`colon_notMem_of_mapDid`), so no listing and no cache
ever has one (`Unmarked`).
-/

namespace FusePosix

open Transition

/-- The path of an entry of a directory. -/
def entryPath (directory name : Str) : Str := directory ++ '/' :: name

/-- A DID in the form `scope:name`. -/
def RucioDid.did (d : RucioDid) : Str := d.scope ++ [':'] ++ d.name

/-! ### Lookups and listings -/

section Expiring

variable {io : Io} {path : Str} {caller : Caller} {s t : State}

/-- A lookup leaves the listings alone. -/
theorem expiring_rucioIsContainer {value : Bool}
    (h : rucioIsContainer io path caller s = .ok (value, t)) : t.expiring = s.expiring := by
  obtain ⟨scope, name, -, ⟨found, -, -, rfl⟩ | ⟨-, payload, s₁, hexchanged, hend⟩⟩ :=
    rucioIsContainer_eq_ok h
  · exact expiring_note _
  · rcases hend with ⟨-, -, rfl⟩ | ⟨front, rest, -, -, rfl⟩
    · exact hexchanged.expiring
    · rw [← hexchanged.expiring]
      funext query
      rcases query with - | - | - | - | - <;> rfl

theorem expiring_rucioGetSize {size : ℤ} (h : rucioGetSize io path caller s = .ok (size, t)) :
    t.expiring = s.expiring := by
  obtain ⟨scope, name, -, ⟨found, -, -, rfl⟩ | ⟨-, payload, s₁, hexchanged, hend⟩⟩ :=
    rucioGetSize_eq_ok h
  · exact expiring_note _
  · rcases hend with ⟨-, -, rfl⟩ | ⟨chunks, -, -, -, rfl⟩ | ⟨chunks, -, -, rfl⟩
    · exact hexchanged.expiring
    · exact hexchanged.expiring
    · rw [← hexchanged.expiring]
      funext query
      rcases query with - | - | - | - | - <;> rfl

end Expiring

section Naming

variable {name : Str} {c e : Component} {cs : List Component} {d : RucioDid}

/-! ### Paths of entries -/

/-- The path of an entry has no trailing slash. -/
theorem removeTrailingToken_entry {p : Str} (hname : '/' ∉ name) (hne : name ≠ []) :
    removeTrailingToken (p ++ '/' :: name) = .ok (p ++ '/' :: name) := by
  have hlast : (p ++ '/' :: name).getLast? ≠ some '/' := by
    rw [List.getLast?_append, List.getLast?_cons, List.getLast?_eq_some_getLast hne]
    simp only [Option.getD_some, Option.some_or, ne_eq, Option.some.injEq]
    exact fun h ↦ hname (h ▸ List.getLast_mem hne)
  have htrail := removeTrailingToken_append (by simp) hlast false
  rwa [if_neg Bool.false_ne_true, List.append_nil] at htrail

/-- The name of an entry is its name. -/
theorem extractName_entryPath {directory : Str} (hname : '/' ∉ name) (hne : name ≠ []) :
    extractName (entryPath directory name) = .ok name := by
  rw [extractName, entryPath, removeTrailingToken_entry hname hne, ok_bind,
    Text.findLast_append_cons hname]
  simp [Text.eraseAt_zero]

/-- The path of an entry below its first component. -/
theorem removeRootPath_entryPath : removeRootPath (entryPath (mkPath (c :: cs) false) name) =
    (c.text ++ pathBody cs) ++ '/' :: name := by
  have hshape : entryPath (mkPath (c :: cs) false) name =
      ['/'] ++ ((c.text ++ pathBody cs) ++ '/' :: name) := by
    simp [mkPath, entryPath]
  rw [removeRootPath, removeSubstring, rucioRootPath, hshape, Text.find_append_left]
  exact Text.eraseAt_zero _ _

/-- Cutting at the first slash, whatever follows it. -/
theorem cutAtSlash_cons {a : Str} (h : '/' ∉ a) (b : Str) : cutAtSlash (a ++ '/' :: b) = a := by
  rw [cutAtSlash, Text.idxOf?_append_cons h]
  exact Text.eraseAt_length_self a _

/-- The server of an entry is that of the directory. -/
theorem extractServerName_entryPath :
    extractServerName (entryPath (mkPath (c :: cs) false) name) = c.text := by
  rw [extractServerName, removeRootPath_entryPath]
  rcases cs with - | ⟨e, cs⟩
  · rw [pathBody_nil, List.append_nil]
    exact cutAtSlash_cons c.slash_notMem name
  · rw [pathBody_cons, List.append_assoc]
    exact cutAtSlash_cons c.slash_notMem _

/-- **The scope of an entry is that of the directory.** -/
theorem extractScope_entryPath (hname : '/' ∉ name) (hne : name ≠ []) :
    extractScope (entryPath (mkPath (c :: e :: cs) false) name) = .ok e.text := by
  have htail : ∃ b, pathBody cs ++ '/' :: name = '/' :: b := by
    rcases cs with - | ⟨d, cs⟩
    · exact ⟨name, rfl⟩
    · exact ⟨_, by rw [pathBody_cons, List.cons_append]⟩
  obtain ⟨b, hb⟩ := htail
  have hshape : (c.text ++ pathBody (e :: cs)) ++ '/' :: name =
      (c.text ++ ['/']) ++ (e.text ++ '/' :: b) := by
    simp [← hb]
  rw [extractScope, removeRootPath_entryPath, removeTrailingToken_entry hname hne, ok_bind,
    extractServerName_entryPath, hshape, removeSubstring, Text.find_append_left]
  simp only [Text.eraseAt_zero, List.drop_left, pure_eq_ok, cutAtSlash_cons e.slash_notMem]

/-- An entry without a name is the directory itself, with a trailing slash. -/
theorem entryPath_nil (cs : List Component) : entryPath (mkPath cs false) [] = mkPath cs true := by
  simp [entryPath, mkPath]

/-! ### What is asked for -/

/-- The names the lookups ask for, for an entry of a directory. -/
theorem entityOfPath_entryPath (hname : '/' ∉ name) (hne : name ≠ []) :
    entityOfPath (entryPath (mkPath (c :: e :: cs) false) name) = .ok [c.text, e.text, name] := by
  rw [entityOfPath, extractScope_entryPath hname hne, ok_bind, extractName_entryPath hname hne,
    ok_bind, extractServerName_entryPath, pure_eq_ok]

theorem entityOfPath_mkPath (c e : Component) (cs : List Component) (trailing : Bool) :
    entityOfPath (mkPath (c :: e :: cs) trailing) =
      .ok [c.text, e.text, ((c :: e :: cs).getLast (List.cons_ne_nil _ _)).text] := by
  have hname := extractName_mkPath (c :: e :: cs).dropLast
    ((c :: e :: cs).getLast (List.cons_ne_nil _ _)) trailing
  rw [List.dropLast_append_getLast] at hname
  rw [entityOfPath, extractScope_mkPath, ok_bind, hname, ok_bind, extractServerName_mkPath,
    pure_eq_ok]

theorem getDid_eq_of_entity {path server scope : Str}
    (h : entityOfPath path = .ok [server, scope, name]) :
    getDid path = .ok (scope ++ [':'] ++ name) := by
  obtain ⟨scope', hscope, h⟩ := bind_eq_ok.1 h
  obtain ⟨name', hname, h⟩ := bind_eq_ok.1 h
  obtain ⟨-, rfl, rfl, -⟩ : _ ∧ scope' = scope ∧ name' = name ∧ True := by simpa using h
  rw [getDid, hscope, ok_bind, hname, ok_bind, pure_eq_ok]

/-- A text without colons in front of a colon is cut off there. -/
theorem append_colon_ne {a b x : Str} (ha : ':' ∉ a) (hx : x ≠ []) :
    a ++ [':'] ≠ b ++ ':' :: x := by
  intro h
  obtain ⟨y, z, rfl⟩ := x.eq_nil_or_concat.resolve_left hx
  have hcut := congrArg List.dropLast h
  rw [List.dropLast_concat] at hcut
  refine ha (hcut ▸ ?_)
  rw [List.concat_eq_append, ← List.cons_append, ← List.append_assoc, List.dropLast_concat]
  simp

/-- The names the lookups ask for are those of the DID exactly if it has a name and its scope is
that of the directory. -/
theorem entity_requested_iff (c e : Component) (cs : List Component) (hname : '/' ∉ d.name) :
    entityOfPath (entryPath (mkPath (c :: e :: cs) false) d.name) = .ok [c.text, d.scope, d.name] ↔
      d.name ≠ [] ∧ d.scope = e.text := by
  rcases hempty : d.name with - | ⟨x, name⟩
  · rw [entryPath_nil, entityOfPath_mkPath]
    have hlast := ((c :: e :: cs).getLast (List.cons_ne_nil _ _)).ne_nil
    simpa using fun _ h ↦ hlast h
  · have hne : d.name ≠ [] := by simp [hempty]
    rw [← hempty, entityOfPath_entryPath hname hne]
    simp [hne, eq_comm]

/-- So is the DID that is downloaded, if there is no colon in the scope. -/
theorem did_requested_iff (c e : Component) (cs : List Component) (hname : '/' ∉ d.name)
    (hcolon : ':' ∉ d.scope) :
    getDid (entryPath (mkPath (c :: e :: cs) false) d.name) = .ok d.did ↔
      d.name ≠ [] ∧ d.scope = e.text := by
  rcases hempty : d.name with - | ⟨x, name⟩
  · rw [entryPath_nil, getDid_eq_of_entity (entityOfPath_mkPath c e cs true), RucioDid.did, hempty,
      List.append_nil, Except.ok.injEq, List.append_assoc]
    have hlast := ((c :: e :: cs).getLast (List.cons_ne_nil _ _)).ne_nil
    exact iff_of_false (append_colon_ne hcolon hlast).symm fun h ↦ h.1 rfl
  · have hne : d.name ≠ [] := by simp [hempty]
    rw [← hempty, getDid_eq_of_entity (entityOfPath_entryPath hname hne), RucioDid.did,
      Except.ok.injEq, List.append_cancel_right_eq, List.append_cancel_right_eq]
    exact eq_comm.trans (and_iff_right hne).symm

/-! ### What the parser lets through -/

/-- A value of the map is one of the texts that were paired up. -/
theorem find_of_pairUp {keyValues : List Str} : ∀ {didMap filled : Table Str Str} {key value : Str},
    pairUp keyValues didMap = .ok filled → filled.find key = some value →
      value ∈ keyValues ∨ didMap.find key = some value := by
  induction keyValues using List.twoStepInduction with
  | nil => exact fun h hfind ↦ Or.inr (Except.ok.inj h ▸ hfind)
  | singleton => exact fun h ↦ nomatch h
  | cons_cons k v keyValues ih _ =>
    intro didMap filled key value h hfind
    rcases ih h hfind with hmem | hfind
    · exact Or.inl (by simp [hmem])
    · rw [Table.find_insert] at hfind
      split_ifs at hfind
      · exact Or.inl (by simp [Option.some.inj hfind])
      · exact Or.inr hfind

/-- **No field has a colon.** -/
theorem colon_notMem_of_mapDid {sdid key : Str} {didMap : Table Str Str}
    (h : mapDid sdid = .ok didMap) : ':' ∉ field didMap key := by
  rw [field]
  rcases hfind : didMap.find key with - | value
  · exact List.not_mem_nil
  intro hcolon
  rcases find_of_pairUp h hfind with hmem | hempty
  · have htext := Text.mem_of_mem_getlines hmem hcolon
    obtain ⟨x, hx, heq⟩ := List.mem_map.1 htext
    obtain ⟨y, -, hy⟩ := List.mem_map.1 hx
    have hcolon' : x = ':' := by
      split_ifs at heq with hcomma
      · exact absurd heq (by decide)
      · exact heq
    rw [hcolon'] at hy
    split_ifs at hy with hy'
    · exact absurd hy (by decide)
    · exact hy' hy
  · exact absurd hempty (by simp [Table.find, Table.empty])

/-- A DID of the parser: there is no colon in its scope. -/
def RucioDid.Unmarked (d : RucioDid) : Prop := ':' ∉ d.scope

theorem unmarked_of_structurizeAll {fill : Table Str Str → RucioDid}
    (hfill : ∀ didMap, (fill didMap).scope = field didMap "scope".toList) {chunks : List Str}
    {remainder remainder' : Str} {dids : List RucioDid}
    (h : structurizeAll (structurizeWith mapDid fill) remainder chunks [] =
      .ok (remainder', dids)) :
    ∀ d ∈ dids, d.Unmarked := by
  refine forall_mem_of_structurizeAll (fun sdid didMap hmap ↦ ?_)
    (fun _ hd ↦ absurd hd List.not_mem_nil) h
  rw [RucioDid.Unmarked, hfill]
  exact colon_notMem_of_mapDid hmap

/-- A listing of DIDs of the parser. -/
def Answer.Unmarked : Answer → Prop
  | .dids listed => ∀ d ∈ listed, d.Unmarked
  | _ => True

theorem unmarked_of_parseChunks {query : Query} {remainder remainder' : Str} {chunks : List Str}
    {answer : Answer} (h : query.parseChunks remainder chunks = .ok (remainder', answer)) :
    answer.Unmarked := by
  rcases query with server | ⟨server, scope⟩ | ⟨server, scope, name⟩ | path | path
  · obtain ⟨scopes, -, hret⟩ := bind_eq_ok.1 h
    obtain ⟨-, rfl⟩ := Prod.mk.inj (Except.ok.inj hret)
    exact trivial
  · obtain ⟨parsed, hparsed, hret⟩ := bind_eq_ok.1 h
    obtain ⟨-, rfl⟩ := Prod.mk.inj (Except.ok.inj hret)
    exact unmarked_of_structurizeAll (fun _ ↦ rfl) hparsed
  · obtain ⟨parsed, hparsed, hret⟩ := bind_eq_ok.1 h
    obtain ⟨-, rfl⟩ := Prod.mk.inj (Except.ok.inj hret)
    exact unmarked_of_structurizeAll (fun _ ↦ rfl) hparsed
  · exact nomatch h
  · exact nomatch h

/-! ### What the caches hold -/

/-- All listings of the caches are of the parser. -/
def State.Unmarked (s : State) : Prop :=
  ∀ query entry, s.expiring query = some entry → entry.2.Unmarked

section Unmarked

variable {call : RestCall} {answer : Answer} {s t : State}

theorem State.Unmarked.of_expiring_eq (hs : s.Unmarked) (h : t.expiring = s.expiring) :
    t.Unmarked :=
  fun query entry hentry ↦ hs query entry (h ▸ hentry)

/-- **What a call lists and leaves in the caches is of the parser.** -/
theorem unmarked_run (hs : s.Unmarked) (h : call.run s = .ok (answer, t)) :
    answer.Unmarked ∧ t.Unmarked := by
  by_cases hlisting : call.query.IsListing
  · induction lists_of_run hlisting h with
    | used hentry => exact ⟨hs _ _ hentry, hs.of_expiring_eq (expiring_note _)⟩
    | nothing hstale hexchanged =>
      refine ⟨?_, hs.of_expiring_eq hexchanged.expiring⟩
      rcases call.query with - | - | - | - | -
      case scopes => exact trivial
      all_goals exact fun d hd ↦ absurd hd List.not_mem_nil
    | fetched hstale hexchanged hparse hremainder hstored =>
      have hanswer := unmarked_of_parseChunks hparse
      refine ⟨hanswer, fun other entry hentry ↦ ?_⟩
      rw [hstored] at hentry
      split_ifs at hentry
      · exact (Option.some.inj hentry) ▸ hanswer
      · exact hs other entry hentry
  · obtain ⟨io, caller, query⟩ := call
    cases RestCall.runs_of_eq_ok h with
    | scopes | dids | containerDids => exact absurd trivial hlisting
    | isContainer hcall => exact ⟨trivial, hs.of_expiring_eq (expiring_rucioIsContainer hcall)⟩
    | size hcall => exact ⟨trivial, hs.of_expiring_eq (expiring_rucioGetSize hcall)⟩

theorem unmarked_clientSteps (hs : s.Unmarked) (h : ClientSteps s t) : t.Unmarked := by
  induction h with
  | refl => exact hs
  | tail _ hstep ih =>
    rcases hstep with hcall | hquiet
    · exact (unmarked_run ih hcall).2
    · exact ih.of_expiring_eq hquiet.expiring

/-- **No listing of a running mount has a colon in a scope.** -/
theorem unmarked_of_reached {servers : ServerMap} {serverNames : List Str}
    (hreach : ClientSteps (State.start servers serverNames) s) : s.Unmarked := by
  refine unmarked_clientSteps (fun query entry hentry ↦ ?_) hreach
  have hnone : (State.start servers serverNames).expiring query = none := by
    rcases query with - | - | - | - | - <;> rfl
  exact absurd (hnone.symm.trans hentry) (by simp)

end Unmarked

/-! ### The DIDs of a directory -/

/-- The listing of a scope or of a container. -/
def listingOf (c e : Component) (cs : List Component) : Query :=
  match cs.getLast? with
  | none => .dids c.text e.text
  | some d => .containerDids c.text e.text d.text

/-- **Which DIDs are requested as they are listed.** Take any state a mount reaches, any listing at
that state, the path of any scope or container, and any DID of the listing whose name has no slash.
The path of its entry leads to the DID it is listed as, both for downloads and for the lookups,
exactly if it has a name and its scope is the one of the directory. The listing need not be
`listingOf` the path: `pathDepth` counts in 16 bits, and takes some very long path for that of a
scope. -/
theorem listed_did_requested_iff {servers : ServerMap} {serverNames : List Str} {s t : State}
    (hreach : ClientSteps (State.start servers serverNames) s) {io : Io} {caller : Caller}
    {dids : List RucioDid} {query : Query}
    (hlist : RestCall.run ⟨io, caller, query⟩ s = .ok (.dids dids, t)) (hd : d ∈ dids)
    (hname : '/' ∉ d.name) :
    (getDid (entryPath (mkPath (c :: e :: cs) false) d.name) = .ok d.did ↔
      d.name ≠ [] ∧ d.scope = e.text) ∧
    (entityOfPath (entryPath (mkPath (c :: e :: cs) false) d.name) = .ok [c.text, d.scope, d.name] ↔
      d.name ≠ [] ∧ d.scope = e.text) := by
  have hunmarked : d.Unmarked := (unmarked_run (unmarked_of_reached hreach) hlist).1 d hd
  exact ⟨did_requested_iff c e cs hname hunmarked, entity_requested_iff c e cs hname⟩

end Naming

/-! ### Two scopes -/

/-- The server `s`. -/
def serverS : Component := ⟨['s'], by decide, by decide, by decide⟩

/-- The scope `x`. -/
def scopeX : Component := ⟨['x'], by decide, by decide, by decide⟩

/-- The container `c`. -/
def containerC : Component := ⟨['c'], by decide, by decide, by decide⟩

/-- A server whose scope `x` has the container `c`, and nothing else; the container holds the file
`f` of the scope `y`. -/
def foreignIo : Io := { sampleIo with net := fun _ request ↦ ⟨0, [
  if request.url = "h/dids/x/c/dids".toList then
    "\x7b\"scope\": \"y\", \"name\": \"f\", \"type\": \"FILE\", \"bytes\": 1\x7d".toList
  else "\x7b\"scope\": \"x\", \"type\": \"CONTAINER\", \"name\": \"c\"\x7d".toList]⟩ }

/-- The container is requested as it is listed. -/
theorem listed_did_requested_iff_container :
    ∃ dids t d, RestCall.run ⟨foreignIo, sampleCaller, listingOf serverS scopeX []⟩
        (State.start twoHolders [['s']]) = .ok (.dids dids, t) ∧ d ∈ dids ∧
      getDid (entryPath (mkPath [serverS, scopeX] false) d.name) = .ok d.did := by
  obtain ⟨t, ht⟩ := exists_of_map_fst_eq_ok (by decide +kernel :
    (RestCall.run ⟨foreignIo, sampleCaller, listingOf serverS scopeX []⟩
      (State.start twoHolders [['s']])).map Prod.fst =
        .ok (.dids [⟨['x'], some .rucioContainer, ['c'], [], none, 0⟩]))
  have hmem :=
    List.mem_singleton_self (⟨['x'], some .rucioContainer, ['c'], [], none, 0⟩ : RucioDid)
  exact ⟨_, t, _, ht, hmem, (listed_did_requested_iff .refl ht hmem (by decide)).1.2
    ⟨by decide, rfl⟩⟩

/-- **A file of another scope.** The container lists `y:f`, the directory shows `f`, and a read of
it asks for `x:f`. -/
theorem foreign_did_requested :
    ∃ dids t d, RestCall.run ⟨foreignIo, sampleCaller, listingOf serverS scopeX [containerC]⟩
        (State.start twoHolders [['s']]) = .ok (.dids dids, t) ∧ d ∈ dids ∧ '/' ∉ d.name ∧
      (rucioReaddir foreignIo (mkPath [serverS, scopeX, containerC] false) sampleCaller
        { rest := State.start twoHolders [['s']] }).map Prod.fst =
          .ok (0, finalizeFiller (dids.map RucioDid.name)) ∧
      d.did = ['y', ':', 'f'] ∧
      getDid (entryPath (mkPath [serverS, scopeX, containerC] false) d.name) =
        .ok ['x', ':', 'f'] := by
  obtain ⟨t, ht⟩ := exists_of_map_fst_eq_ok (by decide +kernel :
    (RestCall.run ⟨foreignIo, sampleCaller, listingOf serverS scopeX [containerC]⟩
      (State.start twoHolders [['s']])).map Prod.fst =
        .ok (.dids [⟨['y'], some .rucioFile, ['f'], [], some 1, 0⟩]))
  exact ⟨_, t, _, ht, List.mem_singleton_self _, by decide, by decide +kernel, rfl,
    by decide +kernel⟩

end FusePosix
