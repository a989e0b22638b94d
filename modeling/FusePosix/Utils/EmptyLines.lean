import FusePosix.Utils.DidChunks

/-!
# Empty lines in front of `coherentizeDids`

`coherentize_dids` asks for the last and the first character of a line without asking first whether
there is one, and `back()` of an empty string is undefined. `coherentizeDids` fills that gap with an
answer; here the gap is kept. `coherentizeDidsChecked` and the loops over it are the same functions
with the two accesses as faulting steps, and they return exactly if no line they look at is empty
(`splitDidsAllChecked_eq`).

A reader takes an empty line from a text that begins with a newline or has two newlines in a row.
Flat records joined by newlines have none in a row, so a chunk of such a body has an empty line
exactly if it begins with a newline: the parser is in bounds on the cuts that leave every newline
behind the record it ends (`no_empty_line_inspected_iff`).
-/

namespace FusePosix

open Reassembly

/-! ### The parser with its accesses -/

/-- `coherentize_dids`, with `back()` and `front()` undefined on an empty line. -/
def coherentizeDidsChecked (remainder didString : Str) : Except Fault (Str × Str) := do
  let back ← deref didString.getLast?
  if back ≠ '}' then
    return (if remainder = [] then didString else remainder ++ didString, [])
  let front ← deref didString.head?
  if front ≠ '{' then
    return ([], remainder ++ didString)
  return (remainder, didString)

/-- The loop of `split_dids` over the lines of a chunk. -/
def splitDidsLoopChecked (remainder : Str) (didStrings : List Str) :
    List Str → Except Fault (Str × List Str)
  | [] => return (remainder, didStrings)
  | buffer :: lines => do
    let seen ← coherentizeDidsChecked remainder buffer
    splitDidsLoopChecked seen.1 (if seen.2 = [] then didStrings else didStrings ++ [seen.2]) lines

/-- Split a chunk into records, appending them to `didStrings`. -/
def splitDidsChecked (remainder line : Str) (didStrings : List Str) :
    Except Fault (Str × List Str) :=
  splitDidsLoopChecked remainder didStrings (Text.getlines '\n' line)

/-- Split the chunks of a body, one call a chunk. -/
def splitDidsAllChecked : Str → List Str → List Str → Except Fault (Str × List Str)
  | remainder, [], didStrings => return (remainder, didStrings)
  | remainder, line :: payload, didStrings => do
    let split ← splitDidsChecked remainder line didStrings
    splitDidsAllChecked split.1 payload split.2

/-- The lines the calls on the chunks of a body hand to `coherentize_dids`, in order. -/
def inspectedLines (chunks : List Str) : List Str :=
  chunks.flatMap (Text.getlines '\n')

/-! ### Where it returns -/

/-- On a line with a character in it the accesses are defined. -/
theorem coherentizeDidsChecked_eq (remainder didString : Str) :
    coherentizeDidsChecked remainder didString =
      if didString = [] then .error .undefined else .ok (coherentizeDids remainder didString) := by
  rcases didString with - | ⟨c, cs⟩
  · rfl
  obtain ⟨last, hlast⟩ : ∃ last, (c :: cs).getLast? = some last :=
    ⟨_, List.getLast?_eq_some_getLast (List.cons_ne_nil c cs)⟩
  rw [if_neg (List.cons_ne_nil c cs), coherentizeDidsChecked, coherentizeDids, hlast]
  simp only [deref_some, ok_bind, List.head?_cons, ne_eq, Option.some.injEq]
  split_ifs <;> rfl

theorem splitDidsLoopChecked_eq (lines : List Str) : ∀ (remainder : Str) (didStrings : List Str),
    splitDidsLoopChecked remainder didStrings lines =
      if [] ∈ lines then .error .undefined
      else .ok (splitDidsLoop remainder didStrings lines) := by
  induction lines with
  | nil => intro remainder didStrings; rfl
  | cons buffer lines ih =>
    intro remainder didStrings
    rw [splitDidsLoopChecked, coherentizeDidsChecked_eq]
    rcases eq_or_ne buffer [] with rfl | hbuffer
    · rw [if_pos rfl, if_pos List.mem_cons_self]
      rfl
    · have hmem : [] ∈ buffer :: lines ↔ [] ∈ lines := by simp [hbuffer.symm]
      rw [if_neg hbuffer, ok_bind, ih, splitDidsLoop]
      simp only [hmem]

/-- **The parser stays in bounds on the bodies without an inspected empty line**, and then it is the
parser of the model. -/
theorem splitDidsAllChecked_eq (chunks : List Str) : ∀ (remainder : Str) (didStrings : List Str),
    splitDidsAllChecked remainder chunks didStrings =
      if [] ∈ inspectedLines chunks then .error .undefined
      else .ok (splitDidsAll remainder chunks didStrings) := by
  induction chunks with
  | nil => intro remainder didStrings; rfl
  | cons line chunks ih =>
    intro remainder didStrings
    have hmem : [] ∈ inspectedLines (line :: chunks) ↔
        [] ∈ Text.getlines '\n' line ∨ [] ∈ inspectedLines chunks := by
      simp [inspectedLines]
    rw [splitDidsAllChecked, splitDidsChecked, splitDidsLoopChecked_eq, splitDidsAll]
    by_cases hline : [] ∈ Text.getlines '\n' line
    · rw [if_pos hline, if_pos (hmem.2 (.inl hline))]
      rfl
    · rw [if_neg hline, ok_bind, ih]
      simp only [hmem, hline, false_or]
      rfl

/-! ### Bodies of flat records -/

/-- Some flat records end with a closing brace. -/
theorem exists_intercalate_eq_append {records : List Str} (hne : records ≠ [])
    (hflat : ∀ r ∈ records, Flat didMarks r) :
    ∃ front, ['\n'].intercalate records = front ++ ['}'] := by
  induction records with
  | nil => exact absurd rfl hne
  | cons r records ih =>
    rcases records with - | ⟨s, records⟩
    · obtain ⟨w, -, rfl⟩ := hflat r List.mem_cons_self
      exact ⟨'{' :: w, List.intercalate_singleton⟩
    · obtain ⟨front, hfront⟩ := ih (List.cons_ne_nil s records) fun t ht ↦
        hflat t (List.mem_cons_of_mem _ ht)
      refine ⟨r ++ ['\n'] ++ front, ?_⟩
      rw [List.intercalate_cons_cons, hfront, List.append_assoc _ front]

/-- **A body of flat records has no two newlines in a row.** -/
theorem not_doubled_joined {records : List Str} (hflat : ∀ r ∈ records, Flat didMarks r)
    (final : Bool) : ¬ ['\n', '\n'] <:+: joined didMarks records final := by
  have hlines : Text.getlines '\n' (['\n'].intercalate records) = records := by
    refine Text.getlines_intercalate (fun r hr ↦ ?_) fun r hr ↦ ?_
    · obtain ⟨w, -, rfl⟩ := hflat r hr
      exact List.cons_ne_nil _ _
    · obtain ⟨w, hw, rfl⟩ := hflat r hr
      have hsep : '\n' ∉ w := hw.2.2
      simp [didMarks, hsep]
  have hrecords : ¬ ['\n', '\n'] <:+: ['\n'].intercalate records := by
    intro hdoubled
    have hnil := (Text.nil_mem_getlines_iff '\n' _).2 (.inr hdoubled)
    rw [hlines] at hnil
    obtain ⟨w, -, hw⟩ := hflat [] hnil
    exact absurd hw (List.cons_ne_nil _ _).symm
  rcases final with - | -
  · rwa [joined, if_neg Bool.false_ne_true, List.append_nil]
  · rw [joined, if_pos rfl]
    intro hdoubled
    rcases List.infix_concat_iff.1 hdoubled with hsuffix | hdoubled
    · -- the newline in front of the last one would end the last record
      obtain ⟨front, hfront⟩ := hsuffix
      have hlast : ['\n'].intercalate records = front ++ ['\n'] := by
        have hsame : ['\n'].intercalate records ++ ['\n'] = front ++ ['\n'] ++ ['\n'] := by
          rw [List.append_assoc]
          exact hfront.symm
        exact List.append_inj_left' hsame rfl
      have hne : records ≠ [] := by
        rintro rfl
        exact List.append_ne_nil_of_right_ne_nil front (List.cons_ne_nil _ _) hlast.symm
      obtain ⟨front', hfront'⟩ := exists_intercalate_eq_append hne hflat
      have hsame := List.append_inj_right' (hlast.symm.trans hfront') rfl
      exact absurd hsame (by decide)
    · exact hrecords hdoubled

/-- A body of flat records has an empty line exactly in the chunks that begin with a newline. -/
theorem nil_mem_inspectedLines_iff {records : List Str}
    (hflat : ∀ r ∈ records, Flat didMarks r) (final : Bool) {chunks : List Str}
    (hchunks : chunks.flatten = joined didMarks records final) :
    [] ∈ inspectedLines chunks ↔ ∃ chunk ∈ chunks, chunk.head? = some '\n' := by
  rw [inspectedLines, List.mem_flatMap]
  refine exists_congr fun chunk ↦ and_congr_right fun hchunk ↦ ?_
  have hdoubled : ¬ ['\n', '\n'] <:+: chunk := fun hdoubled ↦
    not_doubled_joined hflat final
      (hchunks ▸ hdoubled.trans (List.infix_of_mem_flatten hchunk))
  rw [Text.nil_mem_getlines_iff, or_iff_left hdoubled]

/-- **When every inspected line has a character in it.** Let a body consist of flat records joined
by newlines, and cut it into chunks in any way. Every line that reaches `coherentize_dids` is
non-empty exactly if no chunk begins with a newline, and then, and only then, the calls of
`split_dids` on the chunks stay within their strings; they split off exactly the records. -/
theorem no_empty_line_inspected_iff {records : List Str}
    (hflat : ∀ r ∈ records, Flat didMarks r) (final : Bool) {chunks : List Str}
    (hchunks : chunks.flatten = joined didMarks records final) :
    ((∀ line ∈ inspectedLines chunks, line ≠ []) ↔
      ∀ chunk ∈ chunks, chunk.head? ≠ some '\n') ∧
    (splitDidsAllChecked [] chunks [] = .ok ([], records) ↔
      ∀ chunk ∈ chunks, chunk.head? ≠ some '\n') := by
  have hcut : [] ∉ inspectedLines chunks ↔ ∀ chunk ∈ chunks, chunk.head? ≠ some '\n' := by
    rw [nil_mem_inspectedLines_iff hflat final hchunks]
    push Not
    exact Iff.rfl
  refine ⟨?_, ?_⟩
  · rw [← hcut]
    exact ⟨fun hlines hnil ↦ hlines [] hnil rfl, fun hnil line hline e ↦ hnil (e ▸ hline)⟩
  · rw [← hcut, splitDidsAllChecked_eq, splitDidsAll_joined hflat final hchunks, List.nil_append]
    split_ifs with hnil
    · simp [hnil]
    · simp [hnil]

/-- Two flat records. -/
theorem flat_of_mem_pair : ∀ r ∈ [['{', 'a', '}'], ['{', 'b', '}']], Flat didMarks r := by
  intro r hr
  rcases List.mem_pair.1 hr with rfl | rfl
  · exact ⟨['a'], by simp [Plain, didMarks], rfl⟩
  · exact ⟨['b'], by simp [Plain, didMarks], rfl⟩

/-- Two records in two chunks, cut inside of the second record. -/
theorem no_empty_line_inspected_two_chunks :
    splitDidsAllChecked [] [['{', 'a', '}', '\n', '{'], ['b', '}']] [] =
      .ok ([], [['{', 'a', '}'], ['{', 'b', '}']]) := by
  exact (no_empty_line_inspected_iff flat_of_mem_pair false rfl).2.2 (by decide)

/-- **A cut in front of a newline hands out an empty line**: two records, the second chunk beginning
with the newline between them. -/
theorem empty_line_inspected_behind_cut :
    ¬ ∀ (records chunks : List Str), (∀ r ∈ records, Flat didMarks r) →
      (∀ chunk ∈ chunks, chunk ≠ []) → chunks.flatten = joined didMarks records false →
      ∀ line ∈ inspectedLines chunks, line ≠ [] := by
  intro hall
  exact hall _ [['{', 'a', '}'], ['\n', '{', 'b', '}']] flat_of_mem_pair (by decide) rfl []
    (by decide) rfl

end FusePosix
