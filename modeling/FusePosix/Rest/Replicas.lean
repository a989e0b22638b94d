import FusePosix.Rest.Direct

/-!
# The replicas of a DID

`rucio_get_replicas_metalinks` asks a server where the replicas of a DID are, puts the chunks of the
answer together and looks for the object behind `"rses": `, which maps names of storages to arrays
of PFNs. The positions it works with are those of `find`, where `npos` counts like minus one: one
behind it is the start of the text. Of each array it takes everything between the brackets but the
first and the last character.

That is the PFN if the array holds one, with nothing around it. Two PFNs in an array come out as one
text with quotes in it, and from an empty array a range is taken that ends in front of its start. So
all replicas are returned exactly if every array is a single quoted PFN. A body without the
identifier is read from its ninth character on, as if the object began there; it gives the empty
list exactly if the first closing brace comes no earlier and no brackets stand in front of it
(`replicas_returned_iff`).
-/

namespace FusePosix

/-! ### The source -/

/-- `find` of a character from a position on, `none` for `npos`. -/
def findFrom (c : Char) (s : Str) (pos : ℕ) : Option ℕ :=
  ((s.drop pos).idxOf? c).map (pos + ·)

/-- The position behind another one. `npos + 1` wraps around to zero. -/
def behind : Option ℕ → ℕ
  | none => 0
  | some pos => pos + 1

/-- A position as the offset of an iterator, which is signed: `npos` is minus one. -/
def iteratorOffset : Option ℕ → ℤ
  | none => -1
  | some pos => pos

/-- The string between two iterators, which have to be in the string and in order. -/
def stringBetween (s : Str) (first last : ℤ) : Except Fault Str :=
  if 0 ≤ first ∧ first ≤ last ∧ last ≤ s.length then
    .ok ((s.take last.toNat).drop first.toNat)
  else .error .undefined

/-- The text the object of the storages is found by. -/
def rsesIdentifier : Str := "\"rses\": \x7b".toList

/-- The loop over the arrays, with the positions of a pair of brackets. -/
def pfnLoop (rses : Str) : ℕ → Option ℕ → Option ℕ → List Str → Except Fault (List Str)
  | 0, _, _, _ => .error .diverges
  | turns + 1, some begPfn, some endPfn, pfns => do
    let pfn ← stringBetween rses (begPfn + 2) (endPfn - 1)
    let begPfn := findFrom '[' rses (endPfn + 1)
    let endPfn := findFrom ']' rses (behind begPfn)
    pfnLoop rses turns begPfn endPfn (pfns ++ [pfn])
  | _ + 1, _, _, pfns => return pfns

/-- What `rucio_get_replicas_metalinks` does with the chunks of a response. -/
def pfnsOfResponse (payload : List Str) : Except Fault (List Str) := do
  let mergedResponse := payload.flatten
  let rsesPosition := Text.find rsesIdentifier mergedResponse
  let rsesEnd := findFrom '}' mergedResponse (behind rsesPosition)
  let rses ← stringBetween mergedResponse (iteratorOffset rsesPosition + rsesIdentifier.length)
    (iteratorOffset rsesEnd)
  let begPfn := findFrom '[' rses 0
  let endPfn := findFrom ']' rses (behind begPfn)
  -- a turn moves past a bracket
  pfnLoop rses (rses.length + 1) begPfn endPfn []

/-- The request for the replicas of a DID, and the answer, if the server is loaded and the exchange
succeeds. -/
def fetchReplicas (io : Io) (shortServerName scope name : Str) (caller : Caller) (s : State) :
    Except Fault (Option (List Str) × State) := do
  let connParams := getServerParams s.servers shortServerName
  let (headers, s) ← getAuthHeaders io shortServerName caller s
  match headers with
  | none => return (none, s)
  | some headers =>
    let headers := headers ++ ["HTTP_ACCEPT: metalink4+xml".toList]
    let connParams ← deref connParams
    let resource := "/replicas/".toList ++ scope ++ ['/'] ++ name
    let (curlRes, s) := safeGET io (dataRequest connParams resource headers) s
    return (if curlRes.ok then some curlRes.payload else none, s)

/-- `rucio_get_replicas_metalinks`. -/
def rucioGetReplicasMetalinks (io : Io) (path : Str) (caller : Caller) (s : State) :
    Except Fault (List Str × State) := do
  let shortServerName := extractServerName path
  let scope ← extractScope path
  let name ← extractName path
  let (payload, s) ← fetchReplicas io shortServerName scope name caller s
  match payload with
  | none => return ([], s)
  | some payload => return (← pfnsOfResponse payload, s)

theorem rucioGetReplicasMetalinks_of_fetch {io : Io} {path server scope name : Str}
    {caller : Caller} {s t : State} {chunks : List Str}
    (hentity : entityOfPath path = .ok [server, scope, name])
    (hfetch : fetchReplicas io server scope name caller s = .ok (some chunks, t)) :
    rucioGetReplicasMetalinks io path caller s =
      (pfnsOfResponse chunks >>= fun pfns ↦ pure (pfns, t)) := by
  obtain ⟨rfl, hscope, hname⟩ := names_of_entityOfPath hentity
  simp only [rucioGetReplicasMetalinks, hscope, hname, ok_bind, hfetch]

/-! ### Bodies -/

/-- A text free of the characters with a meaning in a replicas response. -/
def FreeText (s : Str) : Prop :=
  '"' ∉ s ∧ '[' ∉ s ∧ ']' ∉ s ∧ '{' ∉ s ∧ '}' ∉ s

instance (s : Str) : Decidable (FreeText s) := inferInstanceAs (Decidable (_ ∧ _))

/-- The text between the brackets of an array: quoted PFNs, with separators around them. -/
inductive ArrayText : List Str → Str → Prop
  | last {gap : Str} (hgap : FreeText gap) : ArrayText [] gap
  | pfn {gap pfn rest : Str} {pfns : List Str} (hgap : FreeText gap) (hpfn : FreeText pfn)
      (hrest : ArrayText pfns rest) :
      ArrayText (pfn :: pfns) (gap ++ '"' :: (pfn ++ '"' :: rest))

/-- An array of the object. -/
structure PfnArray where
  pfns : List Str
  /-- What stands between the brackets. -/
  inner : Str
  text : ArrayText pfns inner

/-- One quoted PFN and nothing else. -/
def PfnArray.IsSingle (x : PfnArray) : Prop :=
  ∃ pfn, x.pfns = [pfn] ∧ x.inner = '"' :: (pfn ++ ['"'])

/-- The text between the braces of the object: arrays, with the names of their storages and other
text in front of them. -/
inductive RsesText : List PfnArray → Str → Prop
  | last {gap : Str} (hopen : '[' ∉ gap) (hbrace : '}' ∉ gap) : RsesText [] gap
  | array {gap rest : Str} {x : PfnArray} {arrays : List PfnArray} (hopen : '[' ∉ gap)
      (hbrace : '}' ∉ gap) (hrest : RsesText arrays rest) :
      RsesText (x :: arrays) (gap ++ '[' :: (x.inner ++ ']' :: rest))

/-- A body with the object, found at the first place where its identifier stands. -/
inductive RsesBody (arrays : List PfnArray) (body : Str) : Prop
  | mk (pre object post : Str) (hbody : body = pre ++ (rsesIdentifier ++ (object ++ '}' :: post)))
      (hfirst : Text.find rsesIdentifier body = some pre.length) (hobject : RsesText arrays object)

/-! ### One array -/

/-- What the loop takes of an array. -/
def PfnArray.read (x : PfnArray) : Str := x.inner.tail.dropLast

theorem ArrayText.bracket_notMem {pfns : List Str} {inner : Str} (h : ArrayText pfns inner) :
    ']' ∉ inner ∧ '}' ∉ inner := by
  induction h with
  | last hgap => exact ⟨hgap.2.2.1, hgap.2.2.2.2⟩
  | pfn hgap hpfn _ ih =>
    obtain ⟨-, -, hclose, -, hbrace⟩ := hgap
    obtain ⟨-, -, hclose', -, hbrace'⟩ := hpfn
    simp [hclose, hclose', hbrace, hbrace', ih.1, ih.2]

/-- Two quotes a PFN. -/
theorem ArrayText.count_quote {pfns : List Str} {inner : Str} (h : ArrayText pfns inner) :
    inner.count '"' = 2 * pfns.length := by
  induction h with
  | last hgap => rw [List.count_eq_zero.2 hgap.1]; rfl
  | pfn hgap hpfn _ ih =>
    rw [List.count_append, List.count_cons_self, List.count_append, List.count_cons_self, ih,
      List.count_eq_zero.2 hgap.1, List.count_eq_zero.2 hpfn.1, List.length_cons]
    omega

theorem ArrayText.quote_notMem {pfns : List Str} {inner : Str} (h : ArrayText pfns inner) :
    ∀ pfn ∈ pfns, '"' ∉ pfn := by
  induction h with
  | last => simp
  | pfn _ hpfn _ ih =>
    intro p hp
    rcases List.mem_cons.1 hp with rfl | hp
    · exact hpfn.1
    · exact ih p hp

/-- A text of at least two characters is its ends and what is between them. -/
theorem exists_ends {l : Str} (h : 2 ≤ l.length) : ∃ c mid d, l = c :: (mid ++ [d]) := by
  rcases l with - | ⟨c, l⟩
  · simp at h
  obtain ⟨mid, d, hl⟩ := l.eq_nil_or_concat.resolve_left (by rintro rfl; simp at h)
  exact ⟨c, mid, d, by rw [hl, List.concat_eq_append]⟩

theorem PfnArray.isSingle_iff (x : PfnArray) : x.IsSingle ↔
    2 ≤ x.inner.length ∧ x.pfns = [x.read] ∧ '"' ∉ x.read := by
  constructor
  · rintro ⟨pfn, hpfns, hinner⟩
    have hread : x.read = pfn := by
      rw [PfnArray.read, hinner, List.tail_cons, List.dropLast_concat]
    refine ⟨by simp [hinner], by rw [hpfns, hread], ?_⟩
    rw [hread]
    exact x.text.quote_notMem pfn (hpfns ▸ List.mem_singleton_self pfn)
  · rintro ⟨hlength, hpfns, hquote⟩
    obtain ⟨c, mid, d, hinner⟩ := exists_ends hlength
    have hread : x.read = mid := by
      rw [PfnArray.read, hinner, List.tail_cons, List.dropLast_concat]
    -- the two quotes of the only PFN are the ends
    have hcount := x.text.count_quote
    rw [hread] at hquote hpfns
    rw [hpfns, hinner, List.count_cons, List.count_append, List.count_eq_zero.2 hquote,
      List.count_singleton, List.length_singleton] at hcount
    have hends : c = '"' ∧ d = '"' := by
      constructor
      · by_contra hc
        simp only [beq_iff_eq, hc, if_false] at hcount
        split_ifs at hcount
        all_goals omega
      · by_contra hd
        simp only [beq_iff_eq, hd, if_false] at hcount
        split_ifs at hcount
        all_goals omega
    exact ⟨mid, hpfns, by rw [hinner, hends.1, hends.2]⟩

/-- An array of which the loop takes a text without quotes has one PFN at most. -/
theorem PfnArray.length_pfns_le {x : PfnArray} (hlength : 2 ≤ x.inner.length)
    (hquote : '"' ∉ x.read) : x.pfns.length ≤ 1 := by
  obtain ⟨c, mid, d, hinner⟩ := exists_ends hlength
  have hcount := x.text.count_quote
  rw [PfnArray.read, hinner, List.tail_cons, List.dropLast_concat] at hquote
  rw [hinner, List.count_cons, List.count_append, List.count_eq_zero.2 hquote,
    List.count_singleton] at hcount
  split_ifs at hcount
  all_goals omega

/-! ### The loop -/

section Loop

variable {c : Char} {a b pre : Str}

theorem findFrom_append_cons (h : c ∉ a) :
    findFrom c (pre ++ (a ++ c :: b)) pre.length = some (pre.length + a.length) := by
  rw [findFrom, List.drop_left, Text.idxOf?_append_cons h, Option.map_some]

theorem findFrom_start (h : c ∉ a) : findFrom c (a ++ c :: b) 0 = some a.length := by
  have hfound := @findFrom_append_cons c a b [] h
  rwa [List.nil_append, List.length_nil, Nat.zero_add] at hfound

theorem findFrom_of_notMem (h : c ∉ a) : findFrom c (pre ++ a) pre.length = none := by
  rw [findFrom, List.drop_left, List.idxOf?_eq_none_iff.2 h, Option.map_none]

/-- A search starts right behind the character that was found. -/
theorem findFrom_behind (c d : Char) (front back : Str) :
    findFrom c (front ++ d :: back) (behind (some front.length)) =
      findFrom c (front ++ [d] ++ back) (front ++ [d]).length := by
  rw [List.append_assoc, List.singleton_append, List.length_append, List.length_singleton, behind]

/-- The string between the ends of a part. -/
theorem stringBetween_part (a b pre : Str) :
    stringBetween (pre ++ (a ++ b)) pre.length (pre.length + a.length) = .ok a := by
  have hin : (0 : ℤ) ≤ pre.length ∧ (pre.length : ℤ) ≤ pre.length + a.length ∧
      (pre.length : ℤ) + a.length ≤ (pre ++ (a ++ b)).length := by
    simp only [List.length_append]
    omega
  have hlast : ((pre.length : ℤ) + a.length).toNat = (pre ++ a).length := by
    rw [List.length_append]
    omega
  rw [stringBetween, if_pos hin, hlast, Int.toNat_natCast, ← List.append_assoc, List.take_left,
    List.drop_left]

/-- A range that ends in front of its start. -/
theorem stringBetween_of_lt {s : Str} {first last : ℤ} (h : last < first) :
    stringBetween s first last = .error .undefined :=
  if_neg fun hin ↦ absurd hin.2.1 (Int.not_le.2 h)

/-- **What the loop takes of an array**, from the second character behind the opening bracket up to
the last one in front of the closing one. -/
theorem stringBetween_array (pre inner rest : Str) :
    stringBetween (pre ++ '[' :: (inner ++ ']' :: rest)) ((pre.length : ℕ) + 2)
        ((pre.length + 1 + inner.length : ℕ) - 1) =
      if 2 ≤ inner.length then .ok inner.tail.dropLast else .error .undefined := by
  split_ifs with hlength
  · obtain ⟨c, mid, d, rfl⟩ := exists_ends hlength
    have htext : pre ++ '[' :: (c :: (mid ++ [d]) ++ ']' :: rest) =
        pre ++ ['[', c] ++ (mid ++ d :: ']' :: rest) := by simp
    have hfirst : ((pre.length : ℕ) : ℤ) + 2 = (pre ++ ['[', c]).length := by simp
    have hlast : ((pre.length + 1 + (c :: (mid ++ [d])).length : ℕ) : ℤ) - 1 =
        (pre ++ ['[', c]).length + mid.length := by
      simp only [List.length_append, List.length_cons, List.length_nil]
      omega
    rw [htext, hfirst, hlast, stringBetween_part, List.tail_cons, List.dropLast_concat]
  · refine stringBetween_of_lt ?_
    omega

/-- **The loop over an object** takes one text of each array, as long as there are two characters
to leave out. -/
theorem pfnLoop_eq {arrays : List PfnArray} {text : Str} (h : RsesText arrays text) :
    ∀ (pre : Str) (turns : ℕ) (pfns : List Str), arrays.length < turns →
      pfnLoop (pre ++ text) turns (findFrom '[' (pre ++ text) pre.length)
          (findFrom ']' (pre ++ text) (behind (findFrom '[' (pre ++ text) pre.length))) pfns =
        if ∀ x ∈ arrays, 2 ≤ x.inner.length then .ok (pfns ++ arrays.map PfnArray.read)
        else .error .undefined := by
  -- over the arrays that are left: each turn starts its search behind the bracket the last one
  -- closed with
  induction h with
  | last hopen =>
    intro pre turns pfns hturns
    obtain ⟨turns, rfl⟩ := Nat.exists_eq_succ_of_ne_zero (Nat.ne_of_gt hturns)
    rw [findFrom_of_notMem hopen, pfnLoop]
    · simp
    · simp
  | @array gap rest x arrays hopen _ hrest ih =>
    intro pre turns pfns hturns
    obtain ⟨turns, rfl⟩ := Nat.exists_eq_succ_of_ne_zero (Nat.ne_of_gt (Nat.zero_lt_of_lt hturns))
    set whole := pre ++ (gap ++ '[' :: (x.inner ++ ']' :: rest)) with hwhole
    have hbeg : findFrom '[' whole pre.length = some (pre ++ gap).length := by
      rw [hwhole, findFrom_append_cons hopen, List.length_append]
    have hend : findFrom ']' whole (behind (some (pre ++ gap).length)) =
        some ((pre ++ gap).length + 1 + x.inner.length) := by
      rw [hwhole, ← List.append_assoc, findFrom_behind,
        findFrom_append_cons x.text.bracket_notMem.1, List.length_append, List.length_singleton]
    have htake := stringBetween_array (pre ++ gap) x.inner rest
    rw [List.append_assoc, ← hwhole] at htake
    rw [hbeg, hend, pfnLoop, htake]
    -- the source leaves out the quotation mark at each end: with fewer than two characters the
    -- iterators are out of order
    by_cases hlength : 2 ≤ x.inner.length
    · have hrest : whole = pre ++ gap ++ ['['] ++ x.inner ++ [']'] ++ rest := by simp [hwhole]
      have hpos : (pre ++ gap).length + 1 + x.inner.length + 1 =
          (pre ++ gap ++ ['['] ++ x.inner ++ [']']).length := by
        simp only [List.length_append, List.length_singleton]
      have hnext := ih (pre ++ gap ++ ['['] ++ x.inner ++ [']']) turns (pfns ++ [x.read])
        (by simpa using hturns)
      rw [if_pos hlength, ok_bind, hpos]
      simp only [List.forall_mem_cons, hlength, true_and, List.map_cons]
      rw [hrest]
      refine hnext.trans ?_
      rw [List.append_assoc, List.singleton_append]
    · rw [if_neg hlength, error_bind, if_neg]
      exact fun hall ↦ hlength (hall x List.mem_cons_self)

end Loop

/-! ### Bodies with the object -/

theorem RsesText.brace_notMem {arrays : List PfnArray} {text : Str} (h : RsesText arrays text) :
    '}' ∉ text := by
  induction h with
  | last _ hbrace => exact hbrace
  | @array gap rest x arrays _ hbrace _ ih =>
    simp [hbrace, x.text.bracket_notMem.2, ih]

theorem RsesText.length_le {arrays : List PfnArray} {text : Str} (h : RsesText arrays text) :
    arrays.length ≤ text.length := by
  induction h with
  | last => exact Nat.zero_le _
  | array =>
    simp only [List.length_append, List.length_cons]
    omega

/-- **What a body with the object comes to.** -/
theorem pfnsOfResponse_of_rsesBody {chunks : List Str} {arrays : List PfnArray}
    (h : RsesBody arrays chunks.flatten) : pfnsOfResponse chunks =
      if ∀ x ∈ arrays, 2 ≤ x.inner.length then .ok (arrays.map PfnArray.read)
      else .error .undefined := by
  obtain ⟨pre, object, post, hbody, hfirst, hobject⟩ := h
  have hend : findFrom '}' chunks.flatten (behind (some pre.length)) =
      some ((pre ++ rsesIdentifier).length + object.length) := by
    obtain ⟨c, tail, hidentifier⟩ : ∃ c tail, rsesIdentifier = c :: tail := ⟨_, _, rfl⟩
    have htail : '}' ∉ tail := by
      have hnot : '}' ∉ rsesIdentifier := by decide
      exact fun hmem ↦ hnot (hidentifier ▸ List.mem_cons_of_mem c hmem)
    have hfront : chunks.flatten = pre ++ c :: (tail ++ object ++ '}' :: post) := by
      rw [hbody, hidentifier]
      simp
    have hnot : '}' ∉ tail ++ object := by
      simp [htail, hobject.brace_notMem]
    rw [hfront, findFrom_behind, findFrom_append_cons hnot, hidentifier]
    simp only [List.length_append, List.length_cons, List.length_nil]
    congr 1
    omega
  have hrses : stringBetween chunks.flatten (iteratorOffset (some pre.length) +
      rsesIdentifier.length) (iteratorOffset (some ((pre ++ rsesIdentifier).length +
        object.length))) = .ok object := by
    have hfirst' : iteratorOffset (some pre.length) + rsesIdentifier.length =
        ((pre ++ rsesIdentifier).length : ℤ) := by
      rw [List.length_append]
      exact (Int.natCast_add _ _).symm
    rw [hfirst', hbody, ← List.append_assoc]
    exact stringBetween_part object ('}' :: post) (pre ++ rsesIdentifier)
  have hloop := pfnLoop_eq hobject [] (object.length + 1) [] (Nat.lt_succ_of_le hobject.length_le)
  simp only [pfnsOfResponse, hfirst, hend, hrses, ok_bind]
  exact hloop

/-- At most one element each, and altogether one each: then it is one each. -/
theorem eq_singleton_of_flatMap_eq_map {α β : Type*} {f : α → β} {g : α → List β} {l : List α}
    (hle : ∀ x ∈ l, (g x).length ≤ 1) (h : l.flatMap g = l.map f) : ∀ x ∈ l, g x = [f x] := by
  have hlength : ∀ l : List α, (∀ x ∈ l, (g x).length ≤ 1) → (l.flatMap g).length ≤ l.length := by
    intro l hl
    induction l with
    | nil => exact le_rfl
    | cons x l ih =>
      have hx := hl x List.mem_cons_self
      have hrest := ih fun y hy ↦ hl y (List.mem_cons_of_mem x hy)
      rw [List.flatMap_cons, List.length_append, List.length_cons]
      omega
  induction l with
  | nil => simp
  | cons x l ih =>
    have hrest : ∀ y ∈ l, (g y).length ≤ 1 := fun y hy ↦ hle y (List.mem_cons_of_mem x hy)
    rw [List.flatMap_cons, List.map_cons] at h
    have hx : (g x).length = 1 := by
      have hall := congrArg List.length h
      have hbound := hlength l hrest
      have hone := hle x List.mem_cons_self
      rw [List.length_append, List.length_cons, List.length_map] at hall
      omega
    obtain ⟨b, hb⟩ := List.length_eq_one_iff.1 hx
    rw [hb, List.singleton_append] at h
    obtain ⟨rfl, hl⟩ := List.cons.inj h
    exact List.forall_mem_cons.2 ⟨hb, ih hrest hl⟩

/-- **All PFNs are returned exactly from arrays of one.** -/
theorem pfnsOfResponse_eq_ok_iff {chunks : List Str} {arrays : List PfnArray}
    (h : RsesBody arrays chunks.flatten) :
    pfnsOfResponse chunks = .ok (arrays.flatMap PfnArray.pfns) ↔ ∀ x ∈ arrays, x.IsSingle := by
  rw [pfnsOfResponse_of_rsesBody h]
  constructor
  · intro hret
    split_ifs at hret with hlength
    have hread := (Except.ok.inj hret).symm
    have hquote : ∀ x ∈ arrays, '"' ∉ x.read := by
      intro x hx
      have hmem : x.read ∈ arrays.flatMap PfnArray.pfns := hread ▸ List.mem_map_of_mem hx
      obtain ⟨y, -, hy⟩ := List.mem_flatMap.1 hmem
      exact y.text.quote_notMem _ hy
    have hone := eq_singleton_of_flatMap_eq_map
      (fun x hx ↦ PfnArray.length_pfns_le (hlength x hx) (hquote x hx)) hread
    exact fun x hx ↦ x.isSingle_iff.2 ⟨hlength x hx, hone x hx, hquote x hx⟩
  · intro hsingle
    have hread : arrays.flatMap PfnArray.pfns = arrays.map PfnArray.read := by
      rw [List.map_eq_flatMap]
      exact List.flatMap_congr fun x hx ↦ (x.isSingle_iff.1 (hsingle x hx)).2.1
    rw [if_pos fun x hx ↦ (x.isSingle_iff.1 (hsingle x hx)).1, hread]

/-! ### Bodies without it -/

/-- A pair of brackets stands in the text, in order. -/
def HasBrackets (s : Str) : Prop :=
  ∃ a b, s = a ++ '[' :: b ∧ ']' ∈ b

/-- The first closing brace stands behind the eighth character or later, without a pair of brackets
between the eighth character and it. -/
def ClosesFree (body : Str) : Prop :=
  ∃ head tail, body = head ++ '}' :: tail ∧ '}' ∉ head ∧ 8 ≤ head.length ∧
    ¬ HasBrackets (head.drop 8)

/-- The brackets are looked for behind the first opening one. -/
theorem hasBrackets_append_cons {a r : Str} (ha : '[' ∉ a) :
    HasBrackets (a ++ '[' :: r) ↔ ']' ∈ r := by
  refine ⟨?_, fun h ↦ ⟨a, r, rfl, h⟩⟩
  rintro ⟨x, y, heq, hy⟩
  rcases Text.append_cons_eq_append_cons ha heq with ⟨-, rfl⟩ | ⟨z, -, rfl⟩
  · exact hy
  · exact List.mem_append_right _ (List.mem_cons_of_mem _ hy)

/-- The first closing brace is the one to look at. -/
theorem closesFree_append_cons {head tail : Str} (hhead : '}' ∉ head) :
    ClosesFree (head ++ '}' :: tail) ↔ 8 ≤ head.length ∧ ¬ HasBrackets (head.drop 8) := by
  refine ⟨?_, fun hclose ↦ ⟨head, tail, rfl, hhead, hclose⟩⟩
  rintro ⟨head', tail', hbody, hhead', hclose⟩
  rcases Text.append_cons_eq_append_cons hhead hbody with ⟨rfl, -⟩ | ⟨z, rfl, -⟩
  · exact hclose
  · exact absurd (by simp) hhead'

/-- The loop does not take back what it has. -/
theorem length_le_of_pfnLoop {rses : Str} {turns : ℕ} :
    ∀ {begPfn endPfn : Option ℕ} {pfns result : List Str},
      pfnLoop rses turns begPfn endPfn pfns = .ok result → pfns.length ≤ result.length := by
  induction turns with
  | zero => intro _ _ _ _ h; cases h
  | succ turns ih =>
    intro begPfn endPfn pfns result h
    rcases begPfn with - | b
    · rw [pfnLoop] at h
      · exact (Except.ok.inj h ▸ le_rfl)
      · simp
    rcases endPfn with - | e
    · rw [pfnLoop] at h
      · exact (Except.ok.inj h ▸ le_rfl)
      · simp
    obtain ⟨pfn, -, h⟩ := bind_eq_ok.1 h
    have hle := ih h
    rw [List.length_append] at hle
    omega

/-- The loop finds nothing exactly in a text without a pair of brackets. -/
theorem pfnLoop_eq_nil_iff (rses : Str) (turns : ℕ) :
    pfnLoop rses (turns + 1) (findFrom '[' rses 0)
        (findFrom ']' rses (behind (findFrom '[' rses 0))) [] = .ok [] ↔
      ¬ HasBrackets rses := by
  rcases Text.notMem_or_exists_line '[' rses with hnone | ⟨a, r, ha, rfl⟩
  · have hbeg : findFrom '[' rses 0 = none := @findFrom_of_notMem '[' rses [] hnone
    have hloop : pfnLoop rses (turns + 1) none (findFrom ']' rses (behind none)) [] = .ok [] := by
      rw [pfnLoop]
      · rfl
      · simp
    rw [hbeg]
    refine iff_of_true hloop ?_
    rintro ⟨a, b, rfl, -⟩
    exact hnone (by simp)
  have hbeg : findFrom '[' (a ++ '[' :: r) 0 = some a.length := findFrom_start ha
  rw [hbeg, hasBrackets_append_cons ha]
  rcases Text.notMem_or_exists_line ']' r with hclose | ⟨b, c, hb, rfl⟩
  · have hend : findFrom ']' (a ++ '[' :: r) (behind (some a.length)) = none := by
      rw [findFrom_behind, findFrom_of_notMem hclose]
    rw [hend]
    refine iff_of_true ?_ hclose
    rw [pfnLoop]
    · rfl
    · simp
  · have hend : findFrom ']' (a ++ '[' :: (b ++ ']' :: c)) (behind (some a.length)) =
        some ((a ++ ['[']).length + b.length) := by
      rw [findFrom_behind, findFrom_append_cons hb]
    rw [hend]
    refine iff_of_false (fun h ↦ ?_) (by simp)
    -- an element was found, and stays
    rw [pfnLoop] at h
    obtain ⟨pfn, -, h⟩ := bind_eq_ok.1 h
    exact absurd (length_le_of_pfnLoop h) (by simp)

/-- **What a body without the identifier comes to**: the empty list only if it closes late and
without brackets. -/
theorem pfnsOfResponse_of_find_eq_none {chunks : List Str}
    (h : Text.find rsesIdentifier chunks.flatten = none) :
    pfnsOfResponse chunks = .ok [] ↔ ClosesFree chunks.flatten := by
  have hfirst : iteratorOffset none + rsesIdentifier.length = 8 := rfl
  simp only [pfnsOfResponse, h, hfirst]
  -- without the identifier the object starts at character eight, whatever stands there: it must
  -- still close behind that
  rcases Text.notMem_or_exists_line '}' chunks.flatten with hnone | ⟨head, tail, hhead, hbody⟩
  · have hend : findFrom '}' chunks.flatten (behind none) = none :=
      @findFrom_of_notMem '}' chunks.flatten [] hnone
    have hout : stringBetween chunks.flatten 8 (iteratorOffset none) = .error .undefined :=
      stringBetween_of_lt (by decide)
    rw [hend, hout, error_bind]
    refine iff_of_false (by simp) ?_
    rintro ⟨head, tail, hbody, -⟩
    exact hnone (hbody ▸ by simp)
  · have hend : findFrom '}' chunks.flatten (behind none) = some head.length := by
      rw [hbody, behind, findFrom_start hhead]
    have hfree : ClosesFree chunks.flatten ↔ 8 ≤ head.length ∧ ¬ HasBrackets (head.drop 8) := by
      rw [hbody]
      exact closesFree_append_cons hhead
    rw [hend, hfree]
    rcases Nat.lt_or_ge head.length 8 with hshort | hlong
    · have hout : stringBetween chunks.flatten 8 (iteratorOffset (some head.length)) =
          .error .undefined := stringBetween_of_lt (Int.ofNat_lt.2 hshort)
      rw [hout, error_bind]
      exact iff_of_false (by simp) fun hclose ↦ absurd hclose.1 (Nat.not_le.2 hshort)
    · have hrses : stringBetween chunks.flatten 8 (iteratorOffset (some head.length)) =
          .ok (head.drop 8) := by
        have hpart := stringBetween_part (head.drop 8) ('}' :: tail) (head.take 8)
        have height : (head.take 8).length = 8 := List.length_take_of_le hlong
        have hlast : ((8 : ℕ) : ℤ) + (head.drop 8).length = head.length := by
          rw [List.length_drop]
          omega
        rw [← List.append_assoc, List.take_append_drop, height, hlast, ← hbody] at hpart
        exact hpart
      rw [hrses, ok_bind, pfnLoop_eq_nil_iff, and_iff_right hlong]

/-! ### The result -/

/-- **When all replicas are returned.** A request for the replicas of a path is answered, in
whatever chunks. If the body has the object of the storages, the PFNs of all its arrays are
returned, one by one and in order, exactly if each array is a single quoted PFN. If it has none, the
empty list is returned, from positions inside of the text, exactly if the first closing brace stands
behind the eighth character or later and no pair of brackets in between. -/
theorem replicas_returned_iff {io : Io} {path server scope name : Str} {caller : Caller}
    {s t : State} {chunks : List Str} (hentity : entityOfPath path = .ok [server, scope, name])
    (hfetch : fetchReplicas io server scope name caller s = .ok (some chunks, t)) :
    (∀ arrays, RsesBody arrays chunks.flatten →
      (rucioGetReplicasMetalinks io path caller s = .ok (arrays.flatMap PfnArray.pfns, t) ↔
        ∀ x ∈ arrays, x.IsSingle)) ∧
    (Text.find rsesIdentifier chunks.flatten = none →
      (rucioGetReplicasMetalinks io path caller s = .ok ([], t) ↔ ClosesFree chunks.flatten)) := by
  have hreturn : ∀ pfns, rucioGetReplicasMetalinks io path caller s = .ok (pfns, t) ↔
      pfnsOfResponse chunks = .ok pfns := by
    intro pfns
    rw [rucioGetReplicasMetalinks_of_fetch hentity hfetch]
    rcases pfnsOfResponse chunks with e | found
    · simp
    · simp
  refine ⟨fun arrays h ↦ ?_, fun h ↦ ?_⟩
  · rw [hreturn, pfnsOfResponse_eq_ok_iff h]
  · rw [hreturn, pfnsOfResponse_of_find_eq_none h]

/-! ### Samples -/

/-- A user with a valid token gets what the network answers. -/
theorem fetchReplicas_of_valid {io : Io} {server scope name : Str} {caller : Caller} {s : State}
    {ret : CurlRet} (hnet : ∀ log request, io.net log request = ret) (hok : ret.ok = true)
    (hvalid : (rucioIsTokenValid io server caller.uid s).1 = true) :
    ∃ t, fetchReplicas io server scope name caller s = .ok (some ret.payload, t) := by
  obtain ⟨srv, hfind, -, -⟩ := exists_of_valid hvalid
  have hrun : fetchReplicas io server scope name caller s = .ok (some ret.payload, s.note (.sent
      (dataRequest srv.rucioConnParams ("/replicas/".toList ++ scope ++ ['/'] ++ name)
        ([tokenHeader (s.tokenOf server caller.uid).connToken] ++
          ["HTTP_ACCEPT: metalink4+xml".toList])).asSent)) := by
    simp only [fetchReplicas, getAuthHeaders_of_valid hvalid, getServerParams_of_find hfind,
      ok_bind, deref_some, safeGET_eq, curlGET_eq, hnet, hok, if_true, pure_eq_ok]
  exact ⟨_, hrun⟩

theorem exists_fetchReplicas_sample (chunks : List Str) : ∃ t,
    fetchReplicas (sampleAnswering chunks) ['s'] ['s'] ['f'] sampleCaller sampleHolder =
      .ok (some chunks, t) := by
  have hvalid : (rucioIsTokenValid sampleIo ['s'] sampleCaller.uid sampleHolder).1 = true := by
    decide
  exact @fetchReplicas_of_valid _ _ _ _ _ _ ⟨0, chunks⟩ (fun _ _ ↦ rfl) rfl hvalid

theorem arrayText_pair {pfn pfn' gap : Str} (hpfn : FreeText pfn) (hpfn' : FreeText pfn')
    (hgap : FreeText gap) :
    ArrayText [pfn, pfn'] ('"' :: (pfn ++ '"' :: (gap ++ '"' :: (pfn' ++ ['"'])))) := by
  have hnil : FreeText [] := by simp [FreeText]
  exact .pfn hnil hpfn (.pfn hgap hpfn' (.last hnil))

theorem arrayText_single {pfn : Str} (hpfn : FreeText pfn) :
    ArrayText [pfn] ('"' :: (pfn ++ ['"'])) := by
  have hnil : FreeText [] := by simp [FreeText]
  exact .pfn hnil hpfn (.last hnil)

/-- An object with one array. -/
theorem rsesBody_one {x : PfnArray} {gap : Str} (hopen : '[' ∉ gap) (hbrace : '}' ∉ gap) :
    RsesBody [x] (rsesIdentifier ++ (gap ++ '[' :: (x.inner ++ [']']) ++ ['}'])) := by
  refine ⟨[], gap ++ '[' :: (x.inner ++ [']']), [], rfl, ?_, ?_⟩
  · exact Text.find_append_left _ _
  · exact .array hopen hbrace (.last (by simp) (by simp))

/-- A storage with one replica, the answer cut in the middle of its PFN. -/
def oneReplica : List Str := ["\"rses\": \x7b\"A\": [\"p".toList, "q\"]\x7d".toList]

/-- A storage with two replicas. -/
def twoReplicas : Str := "\"rses\": \x7b\"A\": [\"p\", \"q\"]\x7d".toList

/-- The one replica is returned. -/
theorem replicas_returned_single : ∃ t,
    rucioGetReplicasMetalinks (sampleAnswering oneReplica) samplePath sampleCaller sampleHolder =
      .ok (["pq".toList], t) := by
  obtain ⟨t, hfetch⟩ := exists_fetchReplicas_sample oneReplica
  have hfree : FreeText "pq".toList := by decide
  have hbody := @rsesBody_one ⟨["pq".toList], _, arrayText_single hfree⟩ "\"A\": ".toList
    (by decide) (by decide)
  refine ⟨t, ((replicas_returned_iff rfl hfetch).1 _ hbody).2 fun x hx ↦ ?_⟩
  rw [List.mem_singleton.1 hx]
  exact ⟨_, rfl, rfl⟩

/-- **Two replicas on one storage come out as one text**, and a body without the object leaves the
string. -/
theorem replicas_not_returned :
    (¬ ∀ arrays t, RsesBody arrays [twoReplicas].flatten →
      fetchReplicas (sampleAnswering [twoReplicas]) ['s'] ['s'] ['f'] sampleCaller sampleHolder =
        .ok (some [twoReplicas], t) →
      rucioGetReplicasMetalinks (sampleAnswering [twoReplicas]) samplePath sampleCaller
        sampleHolder = .ok (arrays.flatMap PfnArray.pfns, t)) ∧
    Text.find rsesIdentifier "\x7b\x7d".toList = none ∧
    (rucioGetReplicasMetalinks (sampleAnswering ["\x7b\x7d".toList]) samplePath sampleCaller
      sampleHolder).map Prod.fst = .error .undefined := by
  refine ⟨fun hall ↦ ?_, by decide, by decide +kernel⟩
  obtain ⟨t, hfetch⟩ := exists_fetchReplicas_sample [twoReplicas]
  have hp : FreeText ['p'] := by decide
  have hq : FreeText ['q'] := by decide
  have hgap : FreeText ", ".toList := by decide
  have hbody := @rsesBody_one ⟨[['p'], ['q']], _, arrayText_pair hp hq hgap⟩ "\"A\": ".toList
    (by decide) (by decide)
  have hreturned : (rucioGetReplicasMetalinks (sampleAnswering [twoReplicas]) samplePath
      sampleCaller sampleHolder).map Prod.fst = .ok ["p\", \"q".toList] := by
    decide +kernel
  rw [hall _ t hbody hfetch] at hreturned
  have hsame : [['p'], ['q']] = ["p\", \"q".toList] := Except.ok.inj hreturned
  exact absurd hsame (by decide)

end FusePosix
