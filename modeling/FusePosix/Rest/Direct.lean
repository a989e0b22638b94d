import FusePosix.Rest.Exchange
import FusePosix.Utils.Printed

/-!
# Looking a single DID up

The type of a DID is found out in two ways. A listing parses the record of the DID and keeps its
type. A lookup of a single DID, which is what happens to a path nobody has listed, asks the server
for the record and looks into the first chunk of the answer for a type in quotes with a comma behind
it.

The second way depends on more than the type: on where the type stands in the record, on where the
first chunk ends, and on whether some other value happens to be the word for a type.
`direct_and_listed_classification_iff` says exactly when the two ways agree.
-/

namespace FusePosix

open Reassembly

/-! ### What a lookup does -/

section Lookups

variable {io : Io} {path server scope name : Str} {caller : Caller} {s t : State}

/-- The names in a path, one by one. -/
theorem names_of_entityOfPath (h : entityOfPath path = .ok [server, scope, name]) :
    extractServerName path = server ∧ extractScope path = .ok scope ∧
      extractName path = .ok name := by
  obtain ⟨scope', hscope, h⟩ := bind_eq_ok.1 h
  obtain ⟨name', hname, h⟩ := bind_eq_ok.1 h
  obtain ⟨hserver, rfl, rfl, -⟩ : extractServerName path = server ∧ scope' = scope ∧
    name' = name ∧ True := by simpa using h
  exact ⟨hserver, hscope, hname⟩

/-- A cached type is answered at once. -/
theorem rucioIsContainer_of_cached {found : Option Bool}
    (hentity : entityOfPath path = .ok [server, scope, name])
    (hfound : s.isContainerCache.find (cacheKey [server, scope, name]) = some found) :
    rucioIsContainer io path caller s = .ok (io.readBool found,
      s.note (.used .isContainer [server, scope, name] (cacheKey [server, scope, name]))) := by
  obtain ⟨rfl, hscope, hname⟩ := names_of_entityOfPath hentity
  simp only [rucioIsContainer, hscope, hname, ok_bind, hfound, pure_eq_ok]

/-- A cached size is answered at once. -/
theorem rucioGetSize_of_cached {found : Option ℤ}
    (hentity : entityOfPath path = .ok [server, scope, name])
    (hfound : s.fileSizeCache.find (cacheKey [server, scope, name]) = some found) :
    rucioGetSize io path caller s = .ok (io.readInt found,
      s.note (.used .fileSize [server, scope, name] (cacheKey [server, scope, name]))) := by
  obtain ⟨rfl, hscope, hname⟩ := names_of_entityOfPath hentity
  simp only [rucioGetSize, hscope, hname, ok_bind, hfound, pure_eq_ok]

/-- A type that is not cached is looked for in the first chunk. -/
theorem rucioIsContainer_of_fetch {front : Str} {rest : List Str}
    (hentity : entityOfPath path = .ok [server, scope, name])
    (hcold : s.isContainerCache.find (cacheKey [server, scope, name]) = none)
    (hfetch : fetchDid io server scope name caller s = .ok (some (front :: rest), t)) :
    rucioIsContainer io path caller s = .ok (saysContainer front,
      t.setIsContainer [server, scope, name] path (saysContainer front)) := by
  obtain ⟨rfl, hscope, hname⟩ := names_of_entityOfPath hentity
  simp only [rucioIsContainer, hscope, hname, ok_bind, hcold, hfetch, List.head?_cons, deref_some,
    pure_eq_ok, saysContainer]

theorem rucioIsFile_of_fetch {front : Str} {rest : List Str}
    (hentity : entityOfPath path = .ok [server, scope, name])
    (hcold : s.isFileCache.find (cacheKey [server, scope, name]) = none)
    (hfetch : fetchDid io server scope name caller s = .ok (some (front :: rest), t)) :
    rucioIsFile io path caller s = .ok (saysFile front,
      t.setIsFile [server, scope, name] path (saysFile front)) := by
  obtain ⟨rfl, hscope, hname⟩ := names_of_entityOfPath hentity
  simp only [rucioIsFile, hscope, hname, ok_bind, hcold, hfetch, List.head?_cons, deref_some,
    pure_eq_ok, saysFile]

/-- A size that is not cached is looked for in all chunks. -/
theorem rucioGetSize_of_fetch {chunks : List Str}
    (hentity : entityOfPath path = .ok [server, scope, name])
    (hcold : s.fileSizeCache.find (cacheKey [server, scope, name]) = none)
    (hfetch : fetchDid io server scope name caller s = .ok (some chunks, t)) :
    rucioGetSize io path caller s = .ok ((sizeOfPayload chunks).elim (-1, t) fun size ↦
      (size, t.emplaceSize [server, scope, name] size)) := by
  obtain ⟨rfl, hscope, hname⟩ := names_of_entityOfPath hentity
  simp only [rucioGetSize, hscope, hname, ok_bind, hcold, hfetch, pure_eq_ok]
  rcases sizeOfPayload chunks with - | size
  · rfl
  · rfl

/-- A user with a valid token gets what the network answers. -/
theorem fetchDid_of_valid {ret : CurlRet} (hnet : ∀ log request, io.net log request = ret)
    (hok : ret.ok = true) (hvalid : (rucioIsTokenValid io server caller.uid s).1 = true) :
    ∃ t, fetchDid io server scope name caller s = .ok (some ret.payload, t) := by
  obtain ⟨srv, hfind, -, -⟩ := exists_of_valid hvalid
  have hrun : fetchDid io server scope name caller s = .ok (some ret.payload, s.note (.sent
      (dataRequest srv.rucioConnParams ("/dids/".toList ++ scope ++ ['/'] ++ name)
        [tokenHeader (s.tokenOf server caller.uid).connToken]).asSent)) := by
    simp only [fetchDid, getAuthHeaders_of_valid hvalid, getServerParams_of_find hfind, ok_bind,
      deref_some, safeGET_eq, curlGET_eq, hnet, hok, if_true, pure_eq_ok]
  exact ⟨_, hrun⟩

end Lookups

/-! ### Words in a chunk -/

/-- A chunk shows a word: it reaches beyond the comma directly behind a string with that word. -/
def DidRecord.Shows (r : DidRecord) (front w : Str) : Prop :=
  ∃ before f after, r.fields = before ++ f :: after ∧ f.quoted = true ∧ f.value.text = w ∧
    f.back = 0 ∧ '{' :: (leadText before ++ f.text ++ [',']) <+: front

/-- A chunk shows a word for a type, and every one it shows is of the kind of `type`: the one word
for files, or one of the two for the rest. -/
def DidRecord.ShowsKind (r : DidRecord) (front : Str) (type : RucioDataType) : Prop :=
  (∃ shown : RucioDataType, r.Shows front shown.word ∧
    (shown = .rucioFile ↔ type = .rucioFile)) ∧
  ∀ shown : RucioDataType, r.Shows front shown.word → (shown = .rucioFile ↔ type = .rucioFile)

/-- **A search finds what a chunk shows.** -/
theorem find_isSome_iff_shows {r : DidRecord} {final : Bool} {front rest w : Str}
    (hquote : '"' ∉ w) (hcolon : ':' ∉ w)
    (hbody : front ++ rest = joined didMarks [r.text] final) :
    (Text.find (inQuotes w ++ [',']) front).isSome = true ↔ r.Shows front w := by
  rw [Text.find_isSome_iff]
  constructor
  · rintro ⟨x, y, rfl⟩
    have hcut : joined didMarks [r.text] final = x ++ inQuotes w ++ ',' :: (y ++ rest) := by
      rw [← hbody]
      simp
    obtain ⟨before, f, after, hfields, hstring, hvalue, hback, hx⟩ :=
      exists_field_of_quoted_comma hquote hcolon hcut
    refine ⟨before, f, after, hfields, hstring, hvalue, hback, y, ?_⟩
    rw [← List.cons_append, ← hx]
    simp
  · rintro ⟨before, f, after, -, hstring, rfl, hback, y, rfl⟩
    refine ⟨'{' :: (leadText before ++ f.keyText ++ ':' :: blanks f.afterColon), y, ?_⟩
    simp [DidField.text, DidField.valueText, DidField.literal, hstring, hback, blanks]

section Classification

variable {r : DidRecord} {type : RucioDataType} {final : Bool} {front : Str} {rest : List Str}

/-- The words for types are words. -/
theorem notMem_typeWord (type : RucioDataType) : '"' ∉ type.word ∧ ':' ∉ type.word := by
  cases type <;> decide

theorem saysContainer_iff (hbody : (front :: rest).flatten = joined didMarks [r.text] final) :
    saysContainer front = true ↔
      ∃ shown : RucioDataType, shown ≠ .rucioFile ∧ r.Shows front shown.word := by
  have hfind := fun shown : RucioDataType ↦
    find_isSome_iff_shows (notMem_typeWord shown).1 (notMem_typeWord shown).2 hbody
  have hsplit : saysContainer front = true ↔
      (Text.find (inQuotes RucioDataType.rucioContainer.word ++ [',']) front).isSome = true ∨
        (Text.find (inQuotes RucioDataType.rucioDataset.word ++ [',']) front).isSome = true :=
    Bool.or_eq_true_iff
  rw [hsplit, hfind, hfind]
  constructor
  · rintro (h | h)
    exacts [⟨.rucioContainer, by decide, h⟩, ⟨.rucioDataset, by decide, h⟩]
  · rintro ⟨shown, hne, h⟩
    cases shown with
    | rucioFile => exact absurd rfl hne
    | rucioContainer => exact Or.inl h
    | rucioDataset => exact Or.inr h

theorem saysFile_iff (hbody : (front :: rest).flatten = joined didMarks [r.text] final) :
    saysFile front = true ↔ r.Shows front RucioDataType.rucioFile.word :=
  find_isSome_iff_shows (notMem_typeWord .rucioFile).1 (notMem_typeWord .rucioFile).2 hbody

/-- The two searches answer as the type asks for exactly if the words that are shown are of its
kind, and there are any. -/
theorem says_iff_shows (hbody : (front :: rest).flatten = joined didMarks [r.text] final) :
    ((saysContainer front = true ↔ type ≠ .rucioFile) ∧ saysFile front = !saysContainer front) ↔
      r.ShowsKind front type := by
  rw [DidRecord.ShowsKind]
  have hcontainer := saysContainer_iff hbody
  have hfile := saysFile_iff hbody
  by_cases htype : type = .rucioFile
  · have hleft : ((saysContainer front = true ↔ type ≠ .rucioFile) ∧
        saysFile front = !saysContainer front) ↔
        saysFile front = true ∧ ¬ saysContainer front = true := by
      cases saysContainer front <;> simp [htype]
    rw [hleft, hcontainer, hfile]
    simp only [htype, iff_true]
    constructor
    · rintro ⟨hshown, hnone⟩
      exact ⟨⟨_, hshown, rfl⟩, fun shown h ↦ by_contra fun hne ↦ hnone ⟨shown, hne, h⟩⟩
    · rintro ⟨⟨_, hshown, rfl⟩, hall⟩
      exact ⟨hshown, fun ⟨shown, hne, h⟩ ↦ hne (hall shown h)⟩
  · have hleft : ((saysContainer front = true ↔ type ≠ .rucioFile) ∧
        saysFile front = !saysContainer front) ↔
        saysContainer front = true ∧ ¬ saysFile front = true := by
      cases saysContainer front <;> simp [htype]
    rw [hleft, hcontainer, hfile]
    simp only [htype, iff_false]
    constructor
    · rintro ⟨⟨shown, hne, hshown⟩, hnone⟩
      exact ⟨⟨shown, hshown, hne⟩, fun other h heq ↦ hnone (heq ▸ h)⟩
    · rintro ⟨⟨shown, hshown, hne⟩, hall⟩
      exact ⟨⟨shown, hne, hshown⟩, fun h ↦ hall _ h rfl⟩

/-- What the two lookups of a path answer, from the chunks of a body, is what a listing says about
the record in that body. -/
def LookupsAgree (io io' : Io) (path : Str) (caller caller' : Caller) (s s' : State)
    (chunks : List Str) : Prop :=
  ∃ isContainer isFile u u' did,
    rucioIsContainer io path caller s = .ok (isContainer, u) ∧
    rucioIsFile io' path caller' s' = .ok (isFile, u') ∧
    structurizeAll structurizeDid [] chunks [] = .ok ([], [did]) ∧
    (isContainer = true ↔ did.type = some .rucioContainer ∨ did.type = some .rucioDataset) ∧
    isFile = !isContainer

variable {io io' : Io} {path server scope name : Str} {caller caller' : Caller}
  {s s' t t' : State}

/-- **When direct and listed classification agree.** For a record of the DID grammar, printed with
any blanks and cut into chunks anywhere, what `rucio_is_container` and `rucio_is_file` answer for
the body is what the parser of listings says about the record exactly if the first chunk shows a
word for a type, and every one it shows is of the kind of the record: a file, or not. -/
theorem direct_and_listed_classification_iff
    (htype : r.value? "type".toList = some type.word)
    (hbody : (front :: rest).flatten = joined didMarks [r.text] final)
    (hentity : entityOfPath path = .ok [server, scope, name])
    (hcontainer : s.isContainerCache.find (cacheKey [server, scope, name]) = none)
    (hfetch : fetchDid io server scope name caller s = .ok (some (front :: rest), t))
    (hfile : s'.isFileCache.find (cacheKey [server, scope, name]) = none)
    (hfetch' : fetchDid io' server scope name caller' s' = .ok (some (front :: rest), t')) :
    LookupsAgree io io' path caller caller' s s' (front :: rest) ↔ r.ShowsKind front type := by
  obtain ⟨didMap, hfind, hparse⟩ := structurizeAll_record r final hbody
  have hlisted : (didOfMap didMap).type = some type :=
    typeAndSize_fst (by rw [field, hfind, htype, Option.getD_some])
  have hkind : (didOfMap didMap).type = some .rucioContainer ∨
      (didOfMap didMap).type = some .rucioDataset ↔ type ≠ .rucioFile := by
    rw [hlisted]
    cases type <;> decide
  refine Iff.trans ?_ (says_iff_shows hbody)
  rw [LookupsAgree, rucioIsContainer_of_fetch hentity hcontainer hfetch,
    rucioIsFile_of_fetch hentity hfile hfetch', structurizeDid, hparse]
  constructor
  · rintro ⟨isContainer, isFile, u, u', did, hc, hf, hd, hiff, hnot⟩
    obtain ⟨rfl, rfl⟩ := Prod.mk.inj (Except.ok.inj hc)
    obtain ⟨rfl, rfl⟩ := Prod.mk.inj (Except.ok.inj hf)
    obtain ⟨rfl, -⟩ := List.cons.inj (Prod.mk.inj (Except.ok.inj hd)).2
    exact ⟨hiff.trans hkind, hnot⟩
  · rintro ⟨hiff, hnot⟩
    exact ⟨_, _, _, _, _, rfl, rfl, rfl, hiff.trans hkind.symm, hnot⟩

end Classification

/-! ### Samples -/

/-- A world that answers every request with one body. -/
def sampleAnswering (chunks : List Str) : Io := { sampleIo with net := fun _ _ ↦ ⟨0, chunks⟩ }

/-- A user who holds a valid token of the server `s`. -/
def sampleHolder : State where
  servers := Table.empty.insert ['s'] {
    rucioConnParams := ⟨['h'], [], [], [], .userpass, []⟩
    rucioTokenInfos := Table.empty.insert 7 { connToken := ['t'], connTokenExpEpoch := 2000000 }
    configFilePath := []
    tempConfigFolder := [] }
  serverNames := [['s']]

/-- The file `f` in the scope `s`. -/
def samplePath : Str := ['/', 's', '/', 's', '/', 'f']

/-- What a fetch for the sample path brings. -/
theorem exists_fetch_sample (chunks : List Str) : ∃ t,
    fetchDid (sampleAnswering chunks) ['s'] ['s'] ['f'] sampleCaller sampleHolder =
      .ok (some chunks, t) := by
  have hvalid : (rucioIsTokenValid sampleIo ['s'] sampleCaller.uid sampleHolder).1 = true := by
    decide
  exact @fetchDid_of_valid _ _ _ _ _ _ ⟨0, chunks⟩ (fun _ _ ↦ rfl) rfl hvalid

/-- The agreement on a file whose type stands in the middle of its record. -/
theorem direct_and_listed_classification_sample :
    LookupsAgree (sampleAnswering [sampleRecord.text]) (sampleAnswering [sampleRecord.text])
        samplePath sampleCaller sampleCaller sampleHolder sampleHolder [sampleRecord.text] ↔
      sampleRecord.ShowsKind sampleRecord.text .rucioFile := by
  obtain ⟨t, hfetch⟩ := exists_fetch_sample [sampleRecord.text]
  exact @direct_and_listed_classification_iff sampleRecord .rucioFile false _ _ _ _ _ _ _ _ _ _ _ _
    _ _ (by decide) rfl (by rfl) rfl hfetch rfl hfetch

/-- The record of a file whose type comes last. -/
def typeLastRecord : DidRecord where
  fields := [{ sampleScope with front := 0 }, sampleName, sampleType]
  keys_nodup := by decide

/-- No comma follows the type of that record, so the lookups say that it is neither a container nor
a file. -/
theorem not_lookupsAgree_typeLast :
    ¬ LookupsAgree (sampleAnswering [typeLastRecord.text]) (sampleAnswering [typeLastRecord.text])
      samplePath sampleCaller sampleCaller sampleHolder sampleHolder [typeLastRecord.text] := by
  rintro ⟨isContainer, isFile, u, u', did, hc, hf, -, -, hnot⟩
  have hneither :
      (rucioIsContainer (sampleAnswering [typeLastRecord.text]) samplePath sampleCaller
        sampleHolder).map Prod.fst = .ok false ∧
      (rucioIsFile (sampleAnswering [typeLastRecord.text]) samplePath sampleCaller
        sampleHolder).map Prod.fst = .ok false := by
    decide +kernel
  rw [hc, hf] at hneither
  obtain ⟨rfl, rfl⟩ := And.intro (Except.ok.inj hneither.1) (Except.ok.inj hneither.2)
  exact absurd hnot (by decide)

end FusePosix
