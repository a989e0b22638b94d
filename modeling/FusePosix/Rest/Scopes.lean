import FusePosix.Rest.Listing

/-!
# A list of scopes in chunks

The server sends the scopes as `["a", "b"]`, and libcurl hands the text over in chunks. The
tokenizer takes each chunk for a whole list: it drops the first and the last character, whatever
they are, and splits the rest at its commas.

It gets the list right exactly if there is nothing to lose at the edges (`CutBetween`): every chunk
has two characters, no cut is next to a character of a name, and the list is not empty with a
newline behind it (there the bracket takes the place of a name). One direction counts the characters
of names that are dropped; the other reads name after name (`elementsOf_items`): behind the closing
quote of a name, what is left of its chunk works as a chunk of its own.
-/

namespace FusePosix

/-! ### The text -/

/-- What does not belong to a name. -/
def punctuation : Str := ['[', ']', '"', ',', ' ']

/-- The end of a list. -/
def listEnd (newline : Bool) : Str := ']' :: if newline then ['\n'] else []

/-- What follows a name: more names, and the end. -/
def moreItems (newline : Bool) : List Str → Str
  | [] => listEnd newline
  | name :: names => ", \"".toList ++ name ++ ['"'] ++ moreItems newline names

/-- The list as the server prints it, with or without a final newline. -/
def pythonList (newline : Bool) (names : List Str) : Str :=
  ['['] ++ ", ".toList.intercalate (names.map fun name ↦ ['"'] ++ name ++ ['"']) ++ listEnd newline

/-- A scope name the list can show. -/
structure ScopeName (name : Str) : Prop where
  ne_nil : name ≠ []
  notMem : ∀ a ∈ name, a ∉ punctuation
  nul_notMem : '\x00' ∉ name

instance (name : Str) : Decidable (ScopeName name) :=
  decidable_of_iff (name ≠ [] ∧ (∀ a ∈ name, a ∉ punctuation) ∧ '\x00' ∉ name)
    ⟨fun h ↦ ⟨h.1, h.2.1, h.2.2⟩, fun h ↦ ⟨h.ne_nil, h.notMem, h.nul_notMem⟩⟩

/-- Chunks of two characters or more, cut next to punctuation only. -/
structure CleanEdges (chunks : List Str) : Prop where
  long : ∀ chunk ∈ chunks, 2 ≤ chunk.length
  starts : ∀ chunk ∈ chunks, ∀ a ∈ chunk.head?, a ∈ punctuation
  ends : ∀ chunk ∈ chunks.dropLast, ∀ a ∈ chunk.getLast?, a ∈ punctuation

instance (chunks : List Str) : Decidable (CleanEdges chunks) :=
  decidable_of_iff ((∀ chunk ∈ chunks, 2 ≤ chunk.length) ∧
      (∀ chunk ∈ chunks, ∀ a ∈ chunk.head?, a ∈ punctuation) ∧
      ∀ chunk ∈ chunks.dropLast, ∀ a ∈ chunk.getLast?, a ∈ punctuation)
    ⟨fun h ↦ ⟨h.1, h.2.1, h.2.2⟩, fun h ↦ ⟨h.long, h.starts, h.ends⟩⟩

/-- The exact condition: clean edges, and no empty list with a newline. -/
structure CutBetween (newline : Bool) (names chunks : List Str) : Prop
    extends CleanEdges chunks where
  shown : names ≠ [] ∨ newline = false

/-- The printed names, one after the other. -/
theorem intercalate_items (newline : Bool) (name : Str) (names : List Str) :
    ", ".toList.intercalate ((name :: names).map fun name ↦ ['"'] ++ name ++ ['"']) ++
      listEnd newline = '"' :: (name ++ '"' :: moreItems newline names) := by
  induction names generalizing name with
  | nil => simp [moreItems]
  | cons next names ih =>
    have hnext := ih next
    rw [List.map_cons] at hnext
    rw [List.map_cons, List.map_cons, List.intercalate_cons_cons, List.append_assoc,
      List.append_assoc, hnext]
    simp [moreItems]

theorem pythonList_cons (newline : Bool) (name : Str) (names : List Str) :
    pythonList newline (name :: names) =
      ['['] ++ '"' :: (name ++ '"' :: moreItems newline names) := by
  rw [pythonList, List.append_assoc, intercalate_items]

/-! ### One chunk -/

/-- What the tokenizer leaves of an element. -/
def cleaned (element : Str) : Str :=
  element.filter fun c ↦ !(c == '"' || c == ' ' || c == ']')

/-- What it makes of a text without its first and last character. -/
def elementsOf (text : Str) : List Str := (Text.getlines ',' text).map cleaned

/-- What it makes of a chunk. -/
def elementsOfChunk (chunk : Str) : List Str := elementsOf (cStr (chunk.drop 1).dropLast)

theorem tokenizePythonList_of_long {chunk : Str} (h : 2 ≤ chunk.length) (target : List Str) :
    tokenizePythonList chunk target = .ok (target ++ elementsOfChunk chunk) := by
  have hlength : (chunk.drop 1).length ≠ 0 := by
    rw [List.length_drop]
    omega
  rw [tokenizePythonList, Text.eraseAt_zero, if_neg hlength]
  rfl

theorem tokenizePythonList_of_short {chunk : Str} (h : ¬ 2 ≤ chunk.length) (target : List Str) :
    tokenizePythonList chunk target = .error .outOfRange := by
  have hlength : (chunk.drop 1).length = 0 := by
    rw [List.length_drop]
    omega
  rw [tokenizePythonList, Text.eraseAt_zero, if_pos hlength]

/-- **The loop returns exactly if every chunk has two characters**, and then it is done chunk by
chunk. -/
theorem tokenizeAll_eq_ok_iff {chunks : List Str} {target scopes : List Str} :
    tokenizeAll chunks target = .ok scopes ↔
      (∀ chunk ∈ chunks, 2 ≤ chunk.length) ∧ scopes = target ++ chunks.flatMap elementsOfChunk := by
  induction chunks generalizing target with
  | nil => simp [tokenizeAll, eq_comm]
  | cons chunk chunks ih =>
    by_cases hlong : 2 ≤ chunk.length
    · rw [tokenizeAll, tokenizePythonList_of_long hlong, ok_bind, ih]
      simp [hlong]
    · rw [tokenizeAll, tokenizePythonList_of_short hlong, error_bind]
      simp [hlong]

/-- A chunk of two characters is all edge. -/
theorem elementsOfChunk_of_length_eq_two {chunk : Str} (h : chunk.length = 2) :
    elementsOfChunk chunk = [] := by
  obtain ⟨a, b, rfl⟩ := List.length_eq_two.1 h
  rfl

/-- Chunks of two characters that have two characters left between them. -/
theorem flatMap_elementsOfChunk_of_length_le {chunks : List Str}
    (hlong : ∀ chunk ∈ chunks, 2 ≤ chunk.length) (h : chunks.flatten.length ≤ 2) :
    chunks.flatMap elementsOfChunk = [] := by
  rcases chunks with - | ⟨chunk, chunks⟩
  · rfl
  have hfirst := hlong chunk List.mem_cons_self
  rw [List.flatten_cons, List.length_append] at h
  rcases chunks with - | ⟨next, chunks⟩
  · rw [List.flatMap_singleton]
    exact elementsOfChunk_of_length_eq_two (by omega)
  · have hnext := hlong next (List.mem_cons_of_mem _ List.mem_cons_self)
    rw [List.flatten_cons, List.length_append] at h
    omega

/-! ### One name -/

/-- A text that is dropped when it stands next to a name: quotes, blanks and closing brackets. -/
def Dropped (text : Str) : Prop := ∀ c ∈ text, c = '"' ∨ c = ' ' ∨ c = ']'

theorem cleaned_eq {gap name tail : Str} (hgap : Dropped gap) (hname : ScopeName name)
    (htail : Dropped tail) : cleaned (gap ++ name ++ tail) = name := by
  have hdropped : ∀ {text : Str}, Dropped text → cleaned text = [] := by
    intro text h
    refine List.filter_eq_nil_iff.2 fun c hc ↦ ?_
    rcases h c hc with rfl | rfl | rfl <;> decide
  have hkept : cleaned name = name := by
    refine List.filter_eq_self.2 fun c hc ↦ ?_
    have hpunctuation := hname.notMem c hc
    simp only [punctuation, List.mem_cons, not_or] at hpunctuation
    simp [hpunctuation]
  have happend : cleaned (gap ++ name ++ tail) = cleaned gap ++ cleaned name ++ cleaned tail := by
    rw [cleaned, List.filter_append, List.filter_append]
    rfl
  rw [happend, hdropped hgap, hkept, hdropped htail, List.append_nil, List.nil_append]

theorem comma_notMem {gap name tail : Str} (hgap : Dropped gap) (hname : ScopeName name)
    (htail : Dropped tail) : ',' ∉ gap ++ name ++ tail := by
  have hdropped : ∀ {text : Str}, Dropped text → ',' ∉ text := by
    intro text h hmem
    rcases h ',' hmem with h | h | h <;> exact absurd h (by decide)
  simp only [List.mem_append, not_or]
  exact ⟨⟨hdropped hgap, fun h ↦ hname.notMem ',' h (by decide)⟩, hdropped htail⟩

/-- A name at the end of a text is one element. -/
theorem elementsOf_last {gap name tail : Str} (hgap : Dropped gap) (hname : ScopeName name)
    (htail : Dropped tail) : elementsOf (gap ++ name ++ tail) = [name] := by
  have hne : gap ++ name ++ tail ≠ [] := by simp [hname.ne_nil]
  rw [elementsOf, Text.getlines_of_notMem (comma_notMem hgap hname htail), if_neg hne,
    List.map_singleton, cleaned_eq hgap hname htail]

/-- A name in front of a comma is the first element. -/
theorem elementsOf_cons {gap name tail : Str} (hgap : Dropped gap) (hname : ScopeName name)
    (htail : Dropped tail) (rest : Str) :
    elementsOf (gap ++ name ++ tail ++ ',' :: rest) = name :: elementsOf rest := by
  rw [elementsOf, Text.getlines_append_cons (comma_notMem hgap hname htail), List.map_cons,
    cleaned_eq hgap hname htail]
  rfl

/-- A chunk with another one behind it does not end inside of a name. -/
theorem CleanEdges.not_ends_in {chunk : Str} {chunks : List Str}
    (h : CleanEdges (chunk :: chunks)) (hchunks : chunks ≠ []) {name front back : Str}
    (hname : ScopeName name) (hchunk : chunk = front ++ back) (hne : back ≠ []) :
    ¬ ∀ a ∈ back, a ∈ name := by
  intro hback
  have hlast : chunk.getLast? = some (back.getLast hne) := by
    rw [hchunk, List.getLast?_append_of_ne_nil _ hne, List.getLast?_eq_some_getLast hne]
  have hmem : chunk ∈ (chunk :: chunks).dropLast := by
    obtain ⟨next, chunks, rfl⟩ := List.exists_cons_of_ne_nil hchunks
    exact List.mem_cons_self
  exact hname.notMem _ (hback _ (List.getLast_mem hne)) (h.ends chunk hmem _ hlast)

/-- **Where the first chunk ends.** The text goes on with `lead`, a quote and a name: the chunk is a
part of `lead`, or it reaches to the closing quote or beyond. -/
theorem first_chunk {chunk : Str} {chunks : List Str} (hedges : CleanEdges (chunk :: chunks))
    {lead name rest : Str} (hname : ScopeName name)
    (h : (chunk :: chunks).flatten = lead ++ '"' :: (name ++ '"' :: rest)) :
    (∃ left, lead = chunk ++ left ∧ chunks.flatten = left ++ '"' :: (name ++ '"' :: rest)) ∨
      ∃ more, chunk = lead ++ '"' :: (name ++ '"' :: more) ∧ more ++ chunks.flatten = rest := by
  have hnil : ∀ {text : Str}, chunks.flatten = text → text ≠ [] → chunks ≠ [] := by
    rintro text htext hne rfl
    exact hne htext.symm
  have h : chunk ++ chunks.flatten = (lead ++ '"' :: name) ++ '"' :: rest := by
    rw [← List.flatten_cons, h, List.append_assoc, List.cons_append]
  rcases List.append_eq_append_iff.1 h with ⟨left, hlead, hflat⟩ | ⟨more, hchunk, hflat⟩
  · rcases List.append_eq_append_iff.1 hlead.symm with ⟨left', rfl, rfl⟩ | ⟨back, hchunk, hback⟩
    · refine Or.inl ⟨left', rfl, ?_⟩
      rw [hflat, List.append_assoc, List.cons_append]
    · rcases back with - | ⟨c, back⟩
      · refine Or.inl ⟨[], by simpa using hchunk.symm, ?_⟩
        obtain rfl : '"' :: name = left := hback
        rw [hflat]
        rfl
      · obtain ⟨rfl, hname'⟩ := List.cons.inj hback
        -- the chunk ends behind the opening quote or inside of the name
        exfalso
        rcases back with - | ⟨a, back⟩
        · obtain ⟨next, chunks, rfl⟩ := List.exists_cons_of_ne_nil (hnil hflat (by simp))
          have hnext : next ∈ chunk :: next :: chunks := by simp
          obtain ⟨a, next, rfl⟩ : ∃ a tail, next = a :: tail :=
            List.exists_cons_of_ne_nil fun hnil ↦ absurd (hedges.long next hnext) (by simp [hnil])
          obtain ⟨b, name, rfl⟩ := List.exists_cons_of_ne_nil hname.ne_nil
          obtain rfl : b :: name = left := hname'
          have hab : a = b := (List.cons.inj hflat).1
          exact hname.notMem b List.mem_cons_self (hedges.starts _ hnext b (by rw [hab]; rfl))
        · refine hedges.not_ends_in (hnil hflat (by simp)) hname
            (show chunk = (lead ++ ['"']) ++ a :: back by rw [hchunk]; simp)
            (List.cons_ne_nil a back) fun d hd ↦ ?_
          rw [hname']
          exact List.mem_append_left _ hd
  · rcases more with - | ⟨c, more⟩
    · exfalso
      refine hedges.not_ends_in (hnil hflat.symm (List.cons_ne_nil _ _)) hname
        (show chunk = (lead ++ ['"']) ++ name by rw [hchunk]; simp) hname.ne_nil fun d hd ↦ hd
    · obtain ⟨rfl, hrest⟩ := List.cons.inj hflat
      exact Or.inr ⟨more, by rw [hchunk, List.append_assoc, List.cons_append], hrest.symm⟩

/-! ### All names -/

/-- What may stand in front of the next opening quote when a chunk begins there. -/
structure Lead (lead : Str) : Prop where
  length_le : lead.length ≤ 2
  dropped : Dropped ((lead ++ ['"']).drop 1)

/-- The tail of a chunk is clean as well, if it is long enough and begins with punctuation. -/
theorem CleanEdges.of_suffix {front more : Str} {chunks : List Str}
    (h : CleanEdges ((front ++ more) :: chunks)) (hlong : 2 ≤ more.length)
    (hstart : ∀ a ∈ more.head?, a ∈ punctuation) : CleanEdges (more :: chunks) where
  long := List.forall_mem_cons.2 ⟨hlong, fun c hc ↦ h.long c (List.mem_cons_of_mem _ hc)⟩
  starts := List.forall_mem_cons.2 ⟨hstart, fun c hc ↦ h.starts c (List.mem_cons_of_mem _ hc)⟩
  ends := by
    rcases chunks with - | ⟨next, chunks⟩
    · simp
    · have hne : more ≠ [] := by
        rintro rfl
        simp at hlong
      have hends := h.ends
      simp only [List.dropLast_cons_cons, List.forall_mem_cons] at hends ⊢
      rwa [List.getLast?_append_of_ne_nil _ hne] at hends

theorem CleanEdges.tail {chunk : Str} {chunks : List Str} (h : CleanEdges (chunk :: chunks)) :
    CleanEdges chunks where
  long c hc := h.long c (List.mem_cons_of_mem _ hc)
  starts c hc := h.starts c (List.mem_cons_of_mem _ hc)
  ends c hc := h.ends c (by
    rcases chunks with - | ⟨next, chunks⟩
    · simp at hc
    · exact List.mem_cons_of_mem _ hc)

/-- A chunk that reaches beyond the closing quote of a name, without its edges. -/
theorem elementsOfChunk_eq {lead name more : Str} (hlead : Lead lead) (hname : ScopeName name)
    (hmore : '\x00' ∉ more) : elementsOfChunk (lead ++ '"' :: (name ++ '"' :: more)) =
      elementsOf ((lead ++ ['"']).drop 1 ++ name ++ ('"' :: more).dropLast) := by
  have hdrop : (lead ++ '"' :: (name ++ '"' :: more)).drop 1 =
      (lead ++ ['"']).drop 1 ++ name ++ '"' :: more := by
    rcases lead with - | ⟨c, lead⟩ <;> simp
  have hgap : '\x00' ∉ (lead ++ ['"']).drop 1 := fun h ↦ by
    rcases hlead.dropped _ h with h | h | h <;> exact absurd h (by decide)
  have hback : '\x00' ∉ ('"' :: more).dropLast := fun h ↦
    (List.mem_cons.1 (List.mem_of_mem_dropLast h)).elim (by decide) hmore
  rw [elementsOfChunk, hdrop, List.dropLast_append_of_ne_nil (List.cons_ne_nil _ _),
    cStr_of_nul_notMem]
  simp only [List.mem_append, not_or]
  exact ⟨⟨hgap, hname.nul_notMem⟩, hback⟩

/-- **The chunk of the next name.** Only a chunk `, ` can come before it. -/
theorem exists_chunk_of_name {chunks : List Str} (hedges : CleanEdges chunks) {lead name rest : Str}
    (hlead : Lead lead) (hname : ScopeName name)
    (h : chunks.flatten = lead ++ '"' :: (name ++ '"' :: rest)) :
    ∃ lead more left, Lead lead ∧
      CleanEdges ((lead ++ '"' :: (name ++ '"' :: more)) :: left) ∧ more ++ left.flatten = rest ∧
      chunks.flatMap elementsOfChunk = elementsOfChunk (lead ++ '"' :: (name ++ '"' :: more)) ++
        left.flatMap elementsOfChunk := by
  have hcons : ∀ {chunks : List Str} {lead : Str},
      chunks.flatten = lead ++ '"' :: (name ++ '"' :: rest) →
        ∃ chunk left, chunks = chunk :: left := by
    intro chunks lead h
    refine List.exists_cons_of_ne_nil fun hnil ↦ ?_
    simp [hnil] at h
  obtain ⟨chunk, left, rfl⟩ := hcons h
  rcases first_chunk hedges hname h with ⟨back, hback, hflat⟩ | ⟨more, rfl, hrest⟩
  · have hlong := hedges.long chunk List.mem_cons_self
    have hlength := hlead.length_le
    rw [hback, List.length_append] at hlength
    obtain rfl : back = [] := List.eq_nil_of_length_eq_zero (by omega)
    have hempty : elementsOfChunk chunk = [] := elementsOfChunk_of_length_eq_two (by omega)
    obtain ⟨next, left, rfl⟩ := hcons hflat
    rcases first_chunk hedges.tail hname hflat with ⟨back, hback, -⟩ | ⟨more, rfl, hrest⟩
    · have hnext := hedges.tail.long next List.mem_cons_self
      rw [(List.append_eq_nil_iff.1 hback.symm).1] at hnext
      exact absurd hnext (by decide)
    · refine ⟨[], more, left, ⟨by decide, by simp [Dropped]⟩, hedges.tail, hrest, ?_⟩
      rw [List.flatMap_cons, hempty, List.nil_append, List.flatMap_cons]
  · exact ⟨lead, more, left, hlead, hedges, hrest, List.flatMap_cons⟩

theorem nul_notMem_moreItems {newline : Bool} {names : List Str}
    (hnames : ∀ n ∈ names, ScopeName n) : '\x00' ∉ moreItems newline names := by
  induction names with
  | nil => cases newline <;> decide
  | cons name names ih =>
    have hname := (hnames name List.mem_cons_self).nul_notMem
    have hrest := ih fun n hn ↦ hnames n (List.mem_cons_of_mem _ hn)
    have hquote : '\x00' ∉ ['"'] := by decide
    have hlead : '\x00' ∉ ", \"".toList := by decide
    simp only [moreItems, List.mem_append, not_or]
    exact ⟨⟨⟨hlead, hname⟩, hquote⟩, hrest⟩

/-- What a chunk takes of the end of the list is dropped or lies at its edge. -/
theorem dropped_listEnd {newline : Bool} {more back : Str} (h : more ++ back = listEnd newline) :
    Dropped ('"' :: more).dropLast := by
  have hcases : more = [] ∨ more = [']'] ∨ more = [']', '\n'] := by
    rcases more with - | ⟨c, - | ⟨d, more⟩⟩
    · exact Or.inl rfl
    · exact Or.inr (Or.inl (by rw [(List.cons.inj h).1]))
    · cases newline
      · simp [listEnd] at h
      · simp only [listEnd, if_pos, List.cons_append, List.cons.injEq] at h
        obtain ⟨rfl, rfl, hnil⟩ := h
        rw [(List.append_eq_nil_iff.1 hnil).1]
        exact Or.inr (Or.inr rfl)
  rcases hcases with rfl | rfl | rfl <;> simp [Dropped]

/-- Behind the closing quote of a name, a chunk goes on like a chunk that begins there. -/
theorem elementsOfChunk_comma {lead name more : Str} {d : Char} (hlead : Lead lead)
    (hname : ScopeName name) (hmore : '\x00' ∉ ',' :: d :: more) :
    elementsOfChunk (lead ++ '"' :: (name ++ '"' :: ',' :: d :: more)) =
      name :: elementsOfChunk (',' :: d :: more) := by
  have hback : ('"' :: ',' :: d :: more).dropLast = ['"'] ++ ',' :: (d :: more).dropLast := rfl
  have hbehind : elementsOfChunk (',' :: d :: more) = elementsOf (d :: more).dropLast := by
    rw [elementsOfChunk, List.drop_one, List.tail_cons, cStr_of_nul_notMem]
    exact fun h ↦ hmore (List.mem_cons_of_mem _ (List.mem_of_mem_dropLast h))
  rw [elementsOfChunk_eq hlead hname hmore, hback, ← List.append_assoc,
    elementsOf_cons hlead.dropped hname (by simp [Dropped]), hbehind]

/-- The last name, and the end of the list. -/
theorem elementsOf_last_item {newline : Bool} {name : Str} (hname : ScopeName name)
    {chunks : List Str} (hedges : CleanEdges chunks) {lead : Str} (hlead : Lead lead)
    (h : chunks.flatten = lead ++ '"' :: (name ++ '"' :: listEnd newline)) :
    chunks.flatMap elementsOfChunk = [name] := by
  obtain ⟨lead, more, left, hlead, hedges, hrest, hall⟩ :=
    exists_chunk_of_name hedges hlead hname h
  have hnul : '\x00' ∉ more ++ left.flatten := by
    rw [hrest]
    cases newline <;> decide
  have hlength : left.flatten.length ≤ 2 := by
    have hend : (listEnd newline).length ≤ 2 := by cases newline <;> decide
    have hsum := congrArg List.length hrest
    rw [List.length_append] at hsum
    omega
  rw [hall, elementsOfChunk_eq hlead hname fun h ↦ hnul (List.mem_append_left _ h),
    elementsOf_last hlead.dropped hname (dropped_listEnd hrest),
    flatMap_elementsOfChunk_of_length_le hedges.tail.long hlength, List.append_nil]

/-- **Name after name.** Chunks with clean edges that show names give these names. -/
theorem elementsOf_items {newline : Bool} {names : List Str} {name : Str}
    (hnames : ∀ n ∈ name :: names, ScopeName n) {chunks : List Str} (hedges : CleanEdges chunks)
    {lead : Str} (hlead : Lead lead)
    (h : chunks.flatten = lead ++ '"' :: (name ++ '"' :: moreItems newline names)) :
    chunks.flatMap elementsOfChunk = name :: names := by
  induction names generalizing name chunks lead with
  | nil => exact elementsOf_last_item (hnames name List.mem_cons_self) hedges hlead h
  | cons next names ih =>
    have hname := hnames name List.mem_cons_self
    have hnexts : ∀ n ∈ next :: names, ScopeName n := fun n hn ↦
      hnames n (List.mem_cons_of_mem _ hn)
    obtain ⟨lead, more, left, hlead, hedges, hrest, hall⟩ :=
      exists_chunk_of_name hedges hlead hname h
    have hmore : '\x00' ∉ more := fun hmem ↦
      nul_notMem_moreItems hnexts (hrest ▸ List.mem_append_left _ hmem)
    have hcomma : Lead ", ".toList := ⟨by decide, by simp [Dropped]⟩
    have hrest : more ++ left.flatten =
        ',' :: ' ' :: '"' :: (next ++ '"' :: moreItems newline names) := by
      rw [hrest]
      simp [moreItems]
    rw [hall]
    -- where the chunk ends behind the closing quote
    rcases more with - | ⟨c, - | ⟨d, more⟩⟩
    · rw [elementsOfChunk_eq hlead hname hmore,
        elementsOf_last hlead.dropped hname (by simp [Dropped]),
        ih hnexts hedges.tail hcomma hrest]
      rfl
    · obtain ⟨rfl, hleft⟩ := List.cons.inj hrest
      have hblank : Lead " ".toList := ⟨by decide, by simp [Dropped]⟩
      rw [elementsOfChunk_eq hlead hname hmore,
        elementsOf_last hlead.dropped hname (by simp [Dropped]),
        ih hnexts hedges.tail hblank hleft]
      rfl
    · obtain ⟨rfl, -⟩ := List.cons.inj hrest
      have hshape : CleanEdges ((lead ++ '"' :: (name ++ ['"']) ++ ',' :: d :: more) :: left) := by
        simpa using hedges
      have hclean := hshape.of_suffix (by simp) (by simp [punctuation])
      rw [elementsOfChunk_comma hlead hname hmore, List.cons_append, ← List.flatMap_cons,
        ih hnexts hclean hcomma hrest]

/-! ### What is lost at the edges -/

/-- The number of characters that do not belong to the notation. -/
def shown (text : Str) : ℕ := text.countP (· ∉ punctuation)

@[simp] theorem shown_nil : shown [] = 0 := rfl

@[simp] theorem shown_append (a b : Str) : shown (a ++ b) = shown a + shown b :=
  List.countP_append

theorem shown_cons (c : Char) (text : Str) : shown (c :: text) = shown [c] + shown text :=
  shown_append [c] text

theorem shown_eq_zero_iff {text : Str} : shown text = 0 ↔ ∀ c ∈ text, c ∈ punctuation := by
  simp [shown, List.countP_eq_zero]

/-- The first and the last character of a chunk. -/
def edges (chunk : Str) : Str := chunk.head?.toList ++ chunk.getLast?.toList

theorem shown_cleaned (element : Str) : shown (cleaned element) = shown element := by
  rw [shown, shown, cleaned, List.countP_filter]
  refine List.countP_congr fun c _ ↦ ?_
  have hkept : c ∉ punctuation → (!(c == '"' || c == ' ' || c == ']')) = true := by
    intro hc
    simp only [punctuation, List.mem_cons, not_or] at hc
    simp [hc]
  simp only [Bool.and_eq_true, decide_eq_true_eq]
  exact ⟨fun h ↦ h.1, fun h ↦ ⟨h, hkept h⟩⟩

/-- Splitting at commas and cleaning loses nothing of a name. -/
theorem shown_elementsOf (text : Str) : shown (elementsOf text).flatten = shown text := by
  have hhead : ∀ (c : Char) (lines : List Str),
      shown ((Text.consHead c lines).map cleaned).flatten =
        shown [c] + shown (lines.map cleaned).flatten := by
    rintro c (- | ⟨line, lines⟩)
    · simp [Text.consHead, shown_cleaned]
    · simp only [Text.consHead, List.map_cons, List.flatten_cons, shown_append, shown_cleaned]
      rw [shown_cons, Nat.add_assoc]
  induction text with
  | nil => rfl
  | cons c text ih =>
    rw [elementsOf] at ih ⊢
    rw [Text.getlines, shown_cons, ← ih]
    by_cases hc : c = ','
    · rw [if_pos hc, List.map_cons, List.flatten_cons, shown_append, hc]
      rfl
    · rw [if_neg hc, hhead]

/-- **A chunk loses its edges.** -/
theorem shown_chunk {chunk : Str} (hlong : 2 ≤ chunk.length) (hnul : '\x00' ∉ chunk) :
    shown chunk = shown (elementsOfChunk chunk).flatten + shown (edges chunk) := by
  obtain ⟨a, rest, rfl⟩ := List.exists_cons_of_length_pos (Nat.lt_of_lt_of_le Nat.two_pos hlong)
  have hne : rest ≠ [] := by
    rintro rfl
    simp at hlong
  have hrest : '\x00' ∉ rest.dropLast := fun h ↦
    hnul (List.mem_cons_of_mem a (List.mem_of_mem_dropLast h))
  have hedges : edges (a :: rest) = [a] ++ [rest.getLast hne] := by
    rw [edges, List.head?_cons, List.getLast?_cons, List.getLast?_eq_some_getLast hne]
    rfl
  rw [elementsOfChunk, List.drop_one, List.tail_cons, cStr_of_nul_notMem hrest, shown_elementsOf,
    hedges, shown_append, shown_cons]
  nth_rewrite 1 [← List.dropLast_append_getLast hne]
  rw [shown_append]
  omega

/-- The names keep what the chunks do not lose. -/
theorem shown_flatten {chunks : List Str} (hlong : ∀ chunk ∈ chunks, 2 ≤ chunk.length)
    (hnul : '\x00' ∉ chunks.flatten) :
    shown chunks.flatten =
      shown (chunks.flatMap elementsOfChunk).flatten + shown (chunks.flatMap edges) := by
  induction chunks with
  | nil => rfl
  | cons chunk chunks ih =>
    rw [List.flatten_cons, List.mem_append, not_or] at hnul
    have hrest := ih (fun c hc ↦ hlong c (List.mem_cons_of_mem _ hc)) hnul.2
    rw [List.flatten_cons, shown_append, hrest, shown_chunk (hlong chunk List.mem_cons_self) hnul.1,
      List.flatMap_cons, List.flatten_append, shown_append, List.flatMap_cons, shown_append]
    omega

/-- The text shows the names and the newline. -/
theorem shown_pythonList {newline : Bool} (names : List Str) :
    shown (pythonList newline names) = shown names.flatten + if newline then 1 else 0 := by
  have hend : shown (listEnd newline) = if newline then 1 else 0 := by
    cases newline <;> decide
  have hmore : ∀ names, shown (moreItems newline names) =
      shown names.flatten + if newline then 1 else 0 := by
    intro names
    induction names with
    | nil => rw [moreItems, hend, List.flatten_nil, shown_nil, Nat.zero_add]
    | cons name names ih =>
      have hlead : shown ", \"".toList = 0 := by decide
      have hquote : shown ['"'] = 0 := by decide
      rw [moreItems, shown_append, shown_append, shown_append, hlead, hquote, ih,
        List.flatten_cons, shown_append]
      omega
  rcases names with - | ⟨name, names⟩
  · have hopen : pythonList newline [] = ['['] ++ listEnd newline := rfl
    rw [hopen, shown_append, hend, List.flatten_nil]
    rfl
  · have hopen : shown ['[', '"'] = 0 := by decide
    have hquote : shown ['"'] = 0 := by decide
    have hshape : pythonList newline (name :: names) =
        ['[', '"'] ++ name ++ ['"'] ++ moreItems newline names := by
      rw [pythonList_cons]
      simp
    rw [hshape, shown_append, shown_append, shown_append, hopen, hquote, hmore, List.flatten_cons,
      shown_append]
    omega

theorem nul_notMem_pythonList {newline : Bool} {names : List Str}
    (hnames : ∀ n ∈ names, ScopeName n) : '\x00' ∉ pythonList newline names := by
  rcases names with - | ⟨name, names⟩
  · cases newline <;> decide
  · have hname := (hnames name List.mem_cons_self).nul_notMem
    have hmore := @nul_notMem_moreItems newline names fun n hn ↦
      hnames n (List.mem_cons_of_mem _ hn)
    rw [pythonList_cons]
    simp [hname, hmore]

/-- The last character of the text is the only one that may be shown and lost. -/
theorem getLast?_pythonList (newline : Bool) (names : List Str) :
    (pythonList newline names).getLast? = some (if newline then '\n' else ']') := by
  rw [pythonList, List.getLast?_append_of_ne_nil _ (by cases newline <;> decide)]
  cases newline <;> rfl

/-! ### The condition -/

/-- An empty list with a newline is one chunk, and shows a name without characters. -/
theorem flatMap_ne_nil_of_emptyList {chunks : List Str}
    (hlong : ∀ chunk ∈ chunks, 2 ≤ chunk.length) (h : chunks.flatten = pythonList true []) :
    chunks.flatMap elementsOfChunk ≠ [] := by
  have hlength : chunks.flatten.length = 3 := by
    rw [h]
    rfl
  rcases chunks with - | ⟨chunk, - | ⟨next, chunks⟩⟩
  · simp at hlength
  · rw [List.flatten_singleton] at h
    rw [h]
    decide
  · have hchunk := hlong chunk (by simp)
    have hnext := hlong next (by simp)
    simp only [List.flatten_cons, List.length_append] at hlength
    omega

/-- If the list comes out right, the newline is all that is lost, and it is lost at the end. -/
theorem edges_of_eq {newline : Bool} {names front : List Str} {a : Char} {rest : Str}
    (hnames : ∀ n ∈ names, ScopeName n)
    (hchunks : (front ++ [a :: rest]).flatten = pythonList newline names)
    (hlong : ∀ chunk ∈ front ++ [a :: rest], 2 ≤ chunk.length)
    (h : (front ++ [a :: rest]).flatMap elementsOfChunk = names) :
    (∀ c ∈ front.flatMap edges, c ∈ punctuation) ∧ a ∈ punctuation := by
  have hsum : shown ((front ++ [a :: rest]).flatMap edges) = if newline then 1 else 0 := by
    have hall := shown_flatten hlong (hchunks ▸ nul_notMem_pythonList hnames)
    rw [hchunks, h, shown_pythonList] at hall
    omega
  have hend : (a :: rest).getLast? = some (if newline then '\n' else ']') := by
    rw [← getLast?_pythonList newline names, ← hchunks, List.flatten_append, List.flatten_singleton,
      List.getLast?_append_of_ne_nil _ (List.cons_ne_nil a rest)]
  have hshown : shown [if newline then '\n' else ']'] = if newline then 1 else 0 := by
    cases newline <;> decide
  rw [List.flatMap_append, shown_append, List.flatMap_singleton, edges, hend, List.head?_cons,
    Option.toList_some, Option.toList_some, shown_append, hshown] at hsum
  have hfirst : ∀ c ∈ [a], c ∈ punctuation := shown_eq_zero_iff.1 (by omega)
  exact ⟨shown_eq_zero_iff.1 (by omega), hfirst a (List.mem_singleton_self a)⟩

/-- **If the list comes out right, the chunks are cut between the names.** -/
theorem cutBetween_of_eq {newline : Bool} {names chunks : List Str}
    (hnames : ∀ n ∈ names, ScopeName n) (hchunks : chunks.flatten = pythonList newline names)
    (hlong : ∀ chunk ∈ chunks, 2 ≤ chunk.length)
    (h : chunks.flatMap elementsOfChunk = names) : CutBetween newline names chunks := by
  have hne : chunks ≠ [] := by
    rintro rfl
    have hlength := congrArg List.length hchunks
    simp [pythonList, listEnd] at hlength
  obtain ⟨front, last, rfl⟩ : ∃ front last, chunks = front ++ [last] :=
    ⟨_, _, (List.dropLast_append_getLast hne).symm⟩
  have hlast := hlong last (by simp)
  obtain ⟨a, rest, rfl⟩ := List.exists_cons_of_length_pos (Nat.lt_of_lt_of_le Nat.two_pos hlast)
  obtain ⟨hfront, hfirst⟩ := edges_of_eq hnames hchunks hlong h
  refine ⟨⟨hlong, ?_, ?_⟩, ?_⟩
  · intro chunk hchunk c hc
    rcases List.mem_append.1 hchunk with hchunk | hchunk
    · exact hfront c (List.mem_flatMap_of_mem hchunk
        (List.mem_append_left _ (Option.mem_toList.2 hc)))
    · obtain rfl := List.mem_singleton.1 hchunk
      exact Option.some.inj hc ▸ hfirst
  · intro chunk hchunk c hc
    rw [List.dropLast_concat] at hchunk
    exact hfront c (List.mem_flatMap_of_mem hchunk
      (List.mem_append_right _ (Option.mem_toList.2 hc)))
  · by_contra hcontra
    push Not at hcontra
    obtain ⟨rfl, hnewline⟩ := hcontra
    rw [(Bool.not_eq_false newline).mp hnewline] at hchunks
    exact flatMap_ne_nil_of_emptyList hlong hchunks h

/-- **When the scope list survives its chunks.** The names of a list, printed with or without a
final newline and cut into chunks: the loop over the chunks gives exactly the names if and only if
every chunk has at least two characters, no cut is next to a character of a name, and the list is
not empty with a newline behind it. -/
theorem scope_listing_iff {newline : Bool} {names chunks : List Str}
    (hnames : ∀ n ∈ names, ScopeName n) (hchunks : chunks.flatten = pythonList newline names) :
    tokenizeAll chunks [] = .ok names ↔ CutBetween newline names chunks := by
  rw [tokenizeAll_eq_ok_iff, List.nil_append, eq_comm (a := names)]
  refine ⟨fun ⟨hlong, h⟩ ↦ cutBetween_of_eq hnames hchunks hlong h, fun h ↦ ⟨h.long, ?_⟩⟩
  rcases names with - | ⟨name, names⟩
  · obtain rfl := h.shown.resolve_left fun hne ↦ hne rfl
    exact flatMap_elementsOfChunk_of_length_le h.long (by rw [hchunks]; decide)
  · have hlead : Lead ['['] := ⟨by decide, by simp [Dropped]⟩
    rw [pythonList_cons] at hchunks
    exact elementsOf_items hnames h.toCleanEdges hlead hchunks

/-- Two scopes, cut behind the comma between them. -/
theorem scope_listing_two :
    tokenizeAll ["[\"a\",".toList, " \"b\"]\n".toList] [] = .ok [['a'], ['b']] := by
  have h := @scope_listing_iff true [['a'], ['b']] ["[\"a\",".toList, " \"b\"]\n".toList]
    (by decide +kernel) (by decide +kernel)
  exact h.2 ⟨by decide +kernel, Or.inl (List.cons_ne_nil _ _)⟩

/-- One scope whose name is cut: the loop finds two, and each has lost a character. -/
theorem not_scopeListing_cutName : ¬ ∀ (newline : Bool) (names chunks : List Str),
    (∀ n ∈ names, ScopeName n) → (∀ chunk ∈ chunks, chunk ≠ []) →
    chunks.flatten = pythonList newline names → tokenizeAll chunks [] = .ok names := by
  intro h
  have hnames := h false ["abcd".toList] ["[\"ab".toList, "cd\"]".toList] (by decide +kernel)
    (by decide +kernel) (by decide +kernel)
  have hfound : tokenizeAll ["[\"ab".toList, "cd\"]".toList] [] = .ok [['a'], ['d']] := by
    decide +kernel
  rw [hfound] at hnames
  exact absurd hnames (by decide +kernel)

end FusePosix
