import FusePosix.Lib.Transition
import FusePosix.Utils.DidChunks

/-!
# What an old remainder does to a listing

The remainder of the record parser is one variable of the process, and no request resets it. A body
that ends inside of a record, or in a text that does not end in a brace, leaves something behind,
and the next listing starts with it.

A line that is a whole record passes by the remainder, and a line that is a piece of a record goes
behind it. So the old remainder waits for the first record that comes in pieces (`firstCut`), stands
in front of that record when it is completed, and is gone afterwards
(`splitDidsLoop_of_firstCut_eq_some`). `listing_after_history_iff` is what this means for two
histories of the process: they show in a listing exactly if the remainders they leave are read
differently in front of that one record.
-/

namespace FusePosix

open Reassembly Transition

/-! ### The parser calls -/

/-- The two functions that parse a chunk. -/
inductive Structurizer where
  | did
  | containerDid
  deriving DecidableEq, Repr

namespace Structurizer

/-- The DID that is made of the fields of a record. -/
def fill : Structurizer → Table Str Str → RucioDid
  | did => didOfMap
  | containerDid => containerDidOfMap

/-- The call on one chunk. -/
def run : Structurizer → Str → Str → List RucioDid → Except Fault (Str × List RucioDid)
  | did => structurizeDid
  | containerDid => structurizeContainerDid

/-- The DID a record is read as. -/
def read (k : Structurizer) (record : Str) : Except Fault RucioDid := k.fill <$> mapDid record

theorem run_eq (k : Structurizer) : k.run = structurizeWith mapDid k.fill := by
  cases k <;> rfl

end Structurizer

/-- A call on one chunk of some body, for whomever it was sent. -/
structure ParserCall where
  structurizer : Structurizer
  chunk : Str
  target : List RucioDid

/-- The remainder behind a call that returns. -/
def ParserCall.step (remainder : Str) (call : ParserCall) : Option Str :=
  (call.structurizer.run remainder call.chunk call.target).toOption.map Prod.fst

/-- What the vector holds behind a body that is parsed with an old remainder. -/
def listingBehind (k : Structurizer) (old : Str) (chunks : List Str) (target : List RucioDid) :
    Except Fault (List RucioDid) :=
  (structurizeAll k.run old chunks target).map Prod.snd

/-! ### A body as lines -/

/-- The lines the parser sees of a body that comes in chunks. -/
def chunkLines (chunks : List Str) : List Str := chunks.flatMap (Text.getlines '\n')

/-- One turn of the loop. -/
theorem splitDidsLoop_step (remainder buffer : Str) (didStrings lines : List Str) :
    splitDidsLoop remainder didStrings (buffer :: lines) =
      splitDidsLoop (lineResult remainder buffer).1
        (didStrings ++ (lineResult remainder buffer).2) lines := by
  rw [splitDidsLoop_append, splitDidsLoop_cons, splitDidsLoop_append _ _ (didStrings ++ _),
    List.append_assoc]

/-- The loop goes on where it stopped. -/
theorem splitDidsLoop_lines_append (xs ys : List Str) : ∀ (remainder : Str) (didStrings : List Str),
    splitDidsLoop remainder didStrings (xs ++ ys) =
      splitDidsLoop (splitDidsLoop remainder didStrings xs).1
        (splitDidsLoop remainder didStrings xs).2 ys := by
  induction xs with
  | nil => intro remainder didStrings; rfl
  | cons x xs ih =>
    intro remainder didStrings
    rw [List.cons_append, splitDidsLoop_step, splitDidsLoop_step, ih]

/-- **The parser sees the lines of the chunks**, one after the other. -/
theorem splitDidsAll_eq_loop (chunks : List Str) : ∀ (remainder : Str) (didStrings : List Str),
    splitDidsAll remainder chunks didStrings =
      splitDidsLoop remainder didStrings (chunkLines chunks) := by
  induction chunks with
  | nil => intro remainder didStrings; rfl
  | cons chunk chunks ih =>
    intro remainder didStrings
    show _ = splitDidsLoop remainder didStrings (Text.getlines '\n' chunk ++ chunkLines chunks)
    rw [splitDidsAll, ih, splitDidsLoop_lines_append]
    rfl

/-! ### Three kinds of lines -/

/-- A line that ends a record and does not begin one completes the record of the remainder. -/
theorem lineResult_completes {remainder line : Str} (hlast : line.getLast? = some '}')
    (hhead : line.head? ≠ some '{') : lineResult remainder line = ([], [remainder ++ line]) := by
  obtain ⟨w, rfl⟩ := List.getLast?_eq_some_iff.1 hlast
  rw [lineResult_closing hhead, List.append_assoc]

/-- A line that begins and ends a record passes by the remainder. -/
theorem lineResult_passes {remainder line : Str} (hlast : line.getLast? = some '}')
    (hhead : line.head? = some '{') : lineResult remainder line = (remainder, [line]) := by
  have hne : line ≠ [] := by
    rintro rfl
    simp at hhead
  have hseen : coherentizeDids remainder line = (remainder, line) := by
    rw [coherentizeDids, if_neg (not_not.2 hlast), if_neg (not_not.2 hhead)]
  rw [lineResult, hseen, if_neg hne]

/-! ### Where the old remainder goes -/

/-- The first record that comes in pieces, behind the records in front of it. -/
def firstCut (before : List Str) (pending : Str) : List Str → Option (List Str × Str)
  | [] => none
  | line :: lines =>
    if line.getLast? ≠ some '}' then firstCut before (pending ++ line) lines
    else if line.head? ≠ some '{' then some (before, pending ++ line)
    else firstCut (before ++ [line]) pending lines

/-- **Without a record in pieces the old remainder stays where it is**, in front of the new one. -/
theorem splitDidsLoop_of_firstCut_eq_none (old : Str) (lines : List Str) :
    ∀ (before : List Str) (pending : Str), firstCut before pending lines = none →
      splitDidsLoop (old ++ pending) before lines =
        (old ++ (splitDidsLoop pending before lines).1,
          (splitDidsLoop pending before lines).2) := by
  induction lines with
  | nil => intro before pending _; rfl
  | cons line lines ih =>
    intro before pending h
    rw [firstCut] at h
    rw [splitDidsLoop_step, splitDidsLoop_step]
    by_cases hlast : line.getLast? = some '}'
    · rw [if_neg (not_not.2 hlast)] at h
      split_ifs at h with hhead
      rw [lineResult_passes hlast (not_not.1 hhead), lineResult_passes hlast (not_not.1 hhead)]
      exact ih _ _ h
    · rw [if_pos hlast] at h
      rw [lineResult_of_getLast?_ne hlast, lineResult_of_getLast?_ne hlast, List.append_assoc]
      simpa using ih before (pending ++ line) h

/-- **The old remainder stands in front of the first record in pieces**, and nothing else depends on
it. -/
theorem splitDidsLoop_of_firstCut_eq_some {front : List Str} {r : Str} (lines : List Str) :
    ∀ (before : List Str) (pending : Str), firstCut before pending lines = some (front, r) →
      ∃ remainder after, ∀ old,
        splitDidsLoop (old ++ pending) before lines =
          (remainder, front ++ (old ++ r) :: after) := by
  induction lines with
  | nil => intro before pending h; cases h
  | cons line lines ih =>
    intro before pending h
    rw [firstCut] at h
    by_cases hlast : line.getLast? = some '}'
    · rw [if_neg (not_not.2 hlast)] at h
      split_ifs at h with hhead
      · obtain ⟨rfl, rfl⟩ := Prod.mk.inj (Option.some.inj h)
        refine ⟨(splitDidsLoop [] [] lines).1, (splitDidsLoop [] [] lines).2, fun old ↦ ?_⟩
        rw [splitDidsLoop_step, lineResult_completes hlast hhead, splitDidsLoop_append]
        simp
      · obtain ⟨remainder, after, hrest⟩ := ih _ _ h
        refine ⟨remainder, after, fun old ↦ ?_⟩
        rw [splitDidsLoop_step, lineResult_passes hlast (not_not.1 hhead), hrest]
    · rw [if_pos hlast] at h
      obtain ⟨remainder, after, hrest⟩ := ih _ _ h
      refine ⟨remainder, after, fun old ↦ ?_⟩
      rw [splitDidsLoop_step, lineResult_of_getLast?_ne hlast, List.append_assoc, List.append_nil,
        hrest]

/-! ### Bodies whose chunks hold whole records -/

/-- No chunk of a body ends inside of a record. -/
def Uncut (chunks : List Str) : Prop :=
  ∀ front, front <+: chunks → scan didMarks .lineStart front.flatten ≠ some .inside

/-- A newline leads from outside of a record to the start of a line. -/
theorem scan_newline {p q : Phase} {line rest : Str}
    (h : scan didMarks p (line ++ '\n' :: rest) = some q) :
    ∃ r, scan didMarks p line = some r ∧ r ≠ .inside ∧ scan didMarks .lineStart rest = some q := by
  rw [scan_append, Option.bind_eq_some_iff] at h
  obtain ⟨r, hr, hrest⟩ := h
  exact ⟨r, hr, by cases r <;> simp_all [scan, Phase.next, didMarks]⟩

/-- Outside of a record every line that ends a record begins it. -/
theorem head?_of_scan {p q : Phase} {line : Str} (hline : '\n' ∉ line) (hp : p ≠ .inside)
    (h : scan didMarks p line = some q) (hlast : line.getLast? = some '}') :
    line.head? = some '{' := by
  cases p with
  | inside => exact absurd rfl hp
  | closed =>
    rw [(scan_closed_piece hline h).1] at hlast
    cases hlast
  | lineStart =>
    rcases scan_lineStart_piece hline h with ⟨rfl, -⟩ | ⟨u, rfl, -⟩
    · cases hlast
    · rfl

/-- **A chunk that begins outside of a record completes none.** -/
theorem completes_none_of_scan {p q : Phase} {chunk : Str} (hp : p ≠ .inside)
    (h : scan didMarks p chunk = some q) : ∀ line ∈ Text.getlines '\n' chunk,
      line.getLast? = some '}' → line.head? = some '{' := by
  induction hn : chunk.length using Nat.strong_induction_on generalizing p chunk with
  | _ n ih =>
    rcases Text.notMem_or_exists_line '\n' chunk with hline | ⟨first, rest, hline, rfl⟩
    · rw [Text.getlines_of_notMem hline]
      split_ifs with hnil
      · simp
      · intro line hmem
        rw [List.mem_singleton.1 hmem]
        exact head?_of_scan hline hp h
    · obtain ⟨r, hr, -, hrest⟩ := scan_newline h
      rw [Text.getlines_append_cons hline]
      intro line hmem
      rcases List.mem_cons.1 hmem with rfl | hmem
      · exact head?_of_scan hline hp hr
      · have hlt : rest.length < n := by
          rw [← hn, List.length_append, List.length_cons]
          omega
        exact ih _ hlt (by decide) hrest rfl line hmem

/-- A chunk that begins inside of a record stays inside of it, or its first line ends the record. -/
theorem chunk_inside {q : Phase} {chunk : Str} (h : scan didMarks .inside chunk = some q) :
    (Plain didMarks chunk ∧ q = .inside) ∨
      ∃ w rest p, Plain didMarks w ∧ p ≠ .inside ∧ scan didMarks p rest = some q ∧
        Text.getlines '\n' chunk = (w ++ ['}']) :: Text.getlines '\n' rest := by
  have hne : ∀ w : Str, w ++ ['}'] ≠ [] := fun w ↦ by simp
  rcases Text.notMem_or_exists_line '\n' chunk with hline | ⟨first, rest, hline, rfl⟩
  · rcases scan_inside_piece hline h with hplain | ⟨w, hw, rfl, rfl⟩
    · exact Or.inl hplain
    · refine Or.inr ⟨w, [], .closed, hw, by decide, rfl, ?_⟩
      exact (Text.getlines_of_notMem hline).trans (if_neg (hne w))
  · obtain ⟨r, hr, hr', hrest⟩ := scan_newline h
    rcases scan_inside_piece hline hr with ⟨-, rfl⟩ | ⟨w, hw, rfl, -⟩
    · exact absurd rfl hr'
    · exact Or.inr ⟨w, rest, .lineStart, hw, by decide, hrest, Text.getlines_append_cons hline rest⟩

/-- Lines that complete no record hold no record in pieces. -/
theorem firstCut_eq_none_of_forall {lines : List Str}
    (h : ∀ line ∈ lines, line.getLast? = some '}' → line.head? = some '{') :
    ∀ (before : List Str) (pending : Str), firstCut before pending lines = none := by
  induction lines with
  | nil => exact fun before pending ↦ rfl
  | cons line lines ih =>
    intro before pending
    have hrest := ih fun other hother ↦ h other (List.mem_cons_of_mem _ hother)
    rw [firstCut]
    split_ifs with hlast hhead
    · exact hrest _ _
    · exact absurd (h line List.mem_cons_self (not_not.1 hlast)) hhead
    · exact hrest _ _

/-- What is found behind some lines is found. -/
theorem exists_firstCut_of_append_eq_none (xs ys : List Str) :
    ∀ (before : List Str) (pending : Str), firstCut before pending (xs ++ ys) = none →
      ∃ before' pending', firstCut before' pending' ys = none := by
  induction xs with
  | nil => exact fun before pending h ↦ ⟨before, pending, h⟩
  | cons x xs ih =>
    intro before pending h
    rw [List.cons_append, firstCut] at h
    split_ifs at h with hlast hhead
    · exact ih _ _ h
    · exact ih _ _ h

/-- If all chunks end outside of a record, none completes a record. -/
theorem completes_none_of_uncut (chunks : List Str) : ∀ (p q : Phase), p ≠ .inside →
    scan didMarks p chunks.flatten = some q →
    (∀ front, front <+: chunks → scan didMarks p front.flatten ≠ some .inside) →
    ∀ line ∈ chunkLines chunks, line.getLast? = some '}' → line.head? = some '{' := by
  induction chunks with
  | nil => intro p q _ _ _ line hline; cases hline
  | cons chunk chunks ih =>
    intro p q hp hscan huncut line hline
    rw [List.flatten_cons, scan_append, Option.bind_eq_some_iff] at hscan
    obtain ⟨r, hr, hrest⟩ := hscan
    rcases List.mem_append.1 (show line ∈ Text.getlines '\n' chunk ++ chunkLines chunks from hline)
      with hfirst | hlater
    · exact completes_none_of_scan hp hr line hfirst
    · have hr' : r ≠ .inside := by
        rintro rfl
        have hone := huncut [chunk] (List.prefix_append [chunk] chunks)
        rw [List.flatten_singleton] at hone
        exact hone hr
      refine ih r q hr' hrest (fun front hfront ↦ ?_) line hlater
      have hlonger := huncut (chunk :: front) (List.cons_prefix_cons.2 ⟨rfl, hfront⟩)
      rwa [List.flatten_cons, scan_append, hr, Option.bind_some] at hlonger

/-- If a body that ends outside of a record has no record in pieces, it never stands inside of one
between two chunks. -/
theorem uncut_of_firstCut_eq_none (chunks : List Str) : ∀ (p q : Phase) (before : List Str)
    (pending : Str), q ≠ .inside → scan didMarks p chunks.flatten = some q →
    firstCut before pending (chunkLines chunks) = none →
    p ≠ .inside ∧ ∀ front, front <+: chunks → scan didMarks p front.flatten ≠ some .inside := by
  induction chunks with
  | nil =>
    intro p q before pending hq hscan _
    obtain rfl : p = q := Option.some.inj hscan
    refine ⟨hq, fun front hfront ↦ ?_⟩
    rw [List.prefix_nil.1 hfront]
    exact fun heq ↦ hq (Option.some.inj heq)
  | cons chunk chunks ih =>
    intro p q before pending hq hscan hcut
    rw [List.flatten_cons, scan_append, Option.bind_eq_some_iff] at hscan
    obtain ⟨r, hr, hrest⟩ := hscan
    obtain ⟨before', pending', hcut'⟩ :=
      exists_firstCut_of_append_eq_none (Text.getlines '\n' chunk) (chunkLines chunks) _ _ hcut
    obtain ⟨hr', huncut⟩ := ih r q before' pending' hq hrest hcut'
    have hp : p ≠ .inside := by
      rintro rfl
      rcases chunk_inside hr with ⟨-, rfl⟩ | ⟨w, rest, -, hw, -, -, hlines⟩
      · exact hr' rfl
      · -- the line that ends the record is the first of the chunk
        have hlast : (w ++ ['}']).getLast? = some '}' := List.getLast?_concat
        have hfirst : firstCut before pending (chunkLines (chunk :: chunks)) =
            some (before, pending ++ (w ++ ['}'])) := by
          show firstCut before pending (Text.getlines '\n' chunk ++ chunkLines chunks) = _
          rw [hlines, List.cons_append, firstCut, if_neg (not_not.2 hlast),
            if_pos (head?_closing_ne_of_plain hw)]
        exact absurd (hfirst.symm.trans hcut) (by simp)
    refine ⟨hp, fun front hfront ↦ ?_⟩
    cases front with
    | nil => exact fun heq ↦ hp (Option.some.inj heq)
    | cons first front =>
      obtain ⟨rfl, hlater⟩ := List.cons_prefix_cons.1 hfront
      rw [List.flatten_cons, scan_append, hr, Option.bind_some]
      exact huncut front hlater

/-- **No record of a complete body comes in pieces exactly if no chunk ends inside of one.** -/
theorem firstCut_eq_none_iff {records : List Str} (hflat : ∀ r ∈ records, Flat didMarks r)
    (final : Bool) {chunks : List Str} (hchunks : chunks.flatten = joined didMarks records final) :
    firstCut [] [] (chunkLines chunks) = none ↔ Uncut chunks := by
  obtain ⟨q, hscan, hq⟩ := scan_joined hflat final
  rw [← hchunks] at hscan
  exact ⟨fun hcut ↦ (uncut_of_firstCut_eq_none chunks _ _ _ _ hq hscan hcut).2,
    fun huncut ↦
      firstCut_eq_none_of_forall (completes_none_of_uncut chunks _ _ (by decide) hscan huncut) _ _⟩

/-! ### What is read -/

/-- A record whose fields can be told. -/
def Readable (record : Str) : Prop := ∃ fields, mapDid record = .ok fields

theorem pairUp_fault {keyValues : List Str} {didMap : Table Str Str} {e : Fault}
    (h : pairUp keyValues didMap = .error e) : e = .undefined := by
  induction keyValues, didMap using pairUp.induct with
  | case1 didMap => cases h
  | case2 key didMap => exact (Except.error.inj h).symm
  | case3 key value keyValues didMap ih => exact ih h

/-- **A record that cannot be read is read behind its last field.** -/
theorem mapDid_of_not_readable {record : Str} (h : ¬Readable record) :
    mapDid record = .error .undefined := by
  rcases hmap : mapDid record with e | fields
  · rw [pairUp_fault hmap]
  · exact absurd ⟨fields, hmap⟩ h

theorem fillDids_of_readable (fill : Table Str Str → RucioDid) {records : List Str}
    (h : ∀ r ∈ records, Readable r) :
    ∃ dids, ∀ target, fillDids mapDid fill records target = .ok (target ++ dids) := by
  induction records with
  | nil => exact ⟨[], fun target ↦ by rw [fillDids, List.append_nil, pure_eq_ok]⟩
  | cons r records ih =>
    obtain ⟨fields, hr⟩ := h r List.mem_cons_self
    obtain ⟨dids, hrest⟩ := ih fun other hother ↦ h other (List.mem_cons_of_mem _ hother)
    refine ⟨fill fields :: dids, fun target ↦ ?_⟩
    rw [fillDids, hr, ok_bind, hrest, List.append_assoc, List.singleton_append]

theorem fillDids_of_not_readable (fill : Table Str Str → RucioDid) {records : List Str} {r : Str}
    (hr : ¬Readable r) (hmem : r ∈ records) :
    ∀ target, fillDids mapDid fill records target = .error .undefined := by
  induction records with
  | nil => exact absurd hmem (by simp)
  | cons first records ih =>
    intro target
    rw [fillDids]
    by_cases hfirst : Readable first
    · obtain ⟨fields, hfields⟩ := hfirst
      have hlater : r ∈ records :=
        (List.mem_cons.1 hmem).resolve_left fun heq ↦ hr (heq ▸ ⟨fields, hfields⟩)
      rw [hfields, ok_bind, ih hlater]
    · rw [mapDid_of_not_readable hfirst, error_bind]

/-- **Replacing one of several records is seen exactly if the others can be read and it is read
otherwise.** -/
theorem fillDids_replace_iff (k : Structurizer) (before after : List Str) (x y : Str)
    (target : List RucioDid) :
    fillDids mapDid k.fill (before ++ x :: after) target =
        fillDids mapDid k.fill (before ++ y :: after) target ↔
      ((∀ other ∈ before ++ after, Readable other) → k.read x = k.read y) := by
  -- one record that cannot be read ends the parse of all of them, so behind such a record nothing
  -- can be seen
  by_cases hothers : ∀ other ∈ before ++ after, Readable other
  · obtain ⟨front, hfront⟩ :=
      fillDids_of_readable k.fill fun r hr ↦ hothers r (List.mem_append_left _ hr)
    obtain ⟨back, hback⟩ :=
      fillDids_of_readable k.fill fun r hr ↦ hothers r (List.mem_append_right _ hr)
    -- with the others readable the list is a function of this record alone
    have hread : ∀ z, fillDids mapDid k.fill (before ++ z :: after) target =
        (fun did ↦ target ++ front ++ did :: back) <$> k.read z := by
      intro z
      rw [fillDids_append, hfront, ok_bind, fillDids, Structurizer.read]
      rcases mapDid z with e | fields
      · rfl
      · rw [ok_bind, hback, List.append_assoc, List.singleton_append]
        rfl
    rw [hread, hread, imp_iff_right hothers]
    refine ⟨fun heq ↦ ?_, fun heq ↦ by rw [heq]⟩
    rcases hx : k.read x with e | did <;> rcases hy : k.read y with e' | did' <;> rw [hx, hy] at heq
    · exact congrArg Except.error (Except.error.inj heq)
    · cases heq
    · cases heq
    · have hdids := List.append_cancel_left (Except.ok.inj heq)
      rw [(List.cons.inj hdids).1]
  · have hunread : ∀ z,
        fillDids mapDid k.fill (before ++ z :: after) target = .error .undefined := by
      intro z
      obtain ⟨r, hr⟩ := not_forall.1 hothers
      obtain ⟨hmem, hread⟩ := Classical.not_imp.1 hr
      refine fillDids_of_not_readable k.fill hread ?_ target
      exact (List.mem_append.1 hmem).elim (List.mem_append_left _)
        fun hback ↦ List.mem_append_right _ (List.mem_cons_of_mem _ hback)
    rw [hunread, hunread]
    exact iff_of_true rfl fun hall ↦ absurd hall hothers

/-! ### Two histories -/

/-- What the vector holds if a body is parsed behind a history of calls, if all of these return. -/
def listingAfter (k : Structurizer) (history : List ParserCall) (chunks : List Str)
    (target : List RucioDid) : Option (Except Fault (List RucioDid)) :=
  (exec ParserCall.step [] history).map fun old ↦ listingBehind k old chunks target

/-- The records that are handed to `mapDid` while a body is parsed behind a history of calls. -/
def recordsAfter (history : List ParserCall) (chunks : List Str) : Option (List Str) :=
  (exec ParserCall.step [] history).map fun old ↦ (splitDidsAll old chunks []).2

/-- Behind an old remainder a body is filled in from the records it is split into. -/
theorem listingBehind_eq (k : Structurizer) (old : Str) (chunks : List Str)
    (target : List RucioDid) :
    listingBehind k old chunks target =
      fillDids mapDid k.fill (splitDidsLoop old [] (chunkLines chunks)).2 target := by
  rw [listingBehind, Structurizer.run_eq, structurizeAll_eq, splitDidsAll_eq_loop]
  rcases fillDids mapDid k.fill (splitDidsLoop old [] (chunkLines chunks)).2 target with e | dids
  · rfl
  · rfl

/-- **When an earlier response shows in a listing.** Take a complete body of flat records, cut into
chunks in any way, and two histories of parser calls. The records that are read off the body are the
same behind either history exactly if the histories leave the same remainder or no chunk of the body
ends inside of a record. The DIDs are the same exactly if the first record that comes in pieces is
read as the same DID behind either remainder, or some other record of the body cannot be read. -/
theorem listing_after_history_iff {h₁ h₂ : List ParserCall} {old₁ old₂ : Str}
    (hh₁ : exec ParserCall.step [] h₁ = some old₁) (hh₂ : exec ParserCall.step [] h₂ = some old₂)
    {records : List Str} (hflat : ∀ r ∈ records, Flat didMarks r) (final : Bool)
    {chunks : List Str} (hchunks : chunks.flatten = joined didMarks records final) :
    (recordsAfter h₁ chunks = recordsAfter h₂ chunks ↔ old₁ = old₂ ∨ Uncut chunks) ∧
    ∀ (k : Structurizer) (target : List RucioDid),
      listingAfter k h₁ chunks target = listingAfter k h₂ chunks target ↔
        ∀ before r after, records = before ++ r :: after →
          firstCut [] [] (chunkLines chunks) = some (before, r) →
          (∀ other ∈ before ++ after, Readable other) →
            k.read (old₁ ++ r) = k.read (old₂ ++ r) := by
  have hclean : (splitDidsLoop [] [] (chunkLines chunks)).2 = records := by
    rw [← splitDidsAll_eq_loop, splitDidsAll_joined hflat final hchunks, List.nil_append]
  simp only [recordsAfter, listingAfter, hh₁, hh₂, Option.map_some, Option.some.injEq,
    listingBehind_eq, splitDidsAll_eq_loop, ← firstCut_eq_none_iff hflat final hchunks]
  rcases hcut : firstCut [] [] (chunkLines chunks) with - | ⟨before, r⟩
  · -- no record comes in pieces: the old remainder is never looked at
    have hsame : ∀ old, (splitDidsLoop old [] (chunkLines chunks)).2 = records := by
      intro old
      have hold := splitDidsLoop_of_firstCut_eq_none old _ _ _ hcut
      rw [List.append_nil] at hold
      rw [hold, hclean]
    rw [hsame, hsame]
    exact ⟨iff_of_true rfl (Or.inr rfl), fun k target ↦ iff_of_true rfl (by simp)⟩
  · obtain ⟨remainder, after, hold⟩ := splitDidsLoop_of_firstCut_eq_some _ _ _ hcut
    simp only [List.append_nil] at hold
    have hrecords : records = before ++ r :: after := by
      rw [← hclean, hold, List.nil_append]
    simp only [hold]
    refine ⟨⟨fun heq ↦ Or.inl ?_, fun heq ↦ ?_⟩, fun k target ↦ ?_⟩
    · have htext := (List.cons.inj (List.append_cancel_left heq)).1
      exact List.append_cancel_right htext
    · rw [heq.resolve_right (by simp)]
    · rw [fillDids_replace_iff]
      refine ⟨fun h before' r' after' hsplit hcut' ↦ ?_, fun h ↦ h before r after hrecords rfl⟩
      obtain ⟨rfl, rfl⟩ := Prod.mk.inj (Option.some.inj hcut')
      rw [hrecords] at hsplit
      rw [← (List.cons.inj (List.append_cancel_left hsplit)).2]
      exact h

/-! ### An error page in front of a record -/

/-- The record of a file, up to a chunk boundary and behind it. -/
def cutRecord : List Str := ["\x7b\"scope\": \"s\", \"na".toList, "me\": \"a\"\x7d".toList]

/-- The record in one piece. -/
def cutRecordWhole : Str := "\x7b\"scope\": \"s\", \"name\": \"a\"\x7d".toList

/-- A call on the page a proxy answers with. -/
def errorPage : ParserCall := ⟨.did, "<html>".toList, []⟩

theorem flat_cutRecordWhole : ∀ r ∈ [cutRecordWhole], Flat didMarks r := by
  intro r hr
  rw [List.mem_singleton.1 hr]
  exact ⟨"\"scope\": \"s\", \"name\": \"a\"".toList,
    ⟨by decide +kernel, by decide +kernel, by decide +kernel⟩, by decide +kernel⟩

theorem cutRecord_flatten : cutRecord.flatten = joined didMarks [cutRecordWhole] false := by
  decide +kernel

/-- The two histories without a call and with one that leaves nothing behind. -/
theorem listing_after_history_iff_whole_body :
    recordsAfter [] cutRecord = recordsAfter [⟨.did, cutRecordWhole, []⟩] cutRecord := by
  have hwhole : exec ParserCall.step [] [⟨.did, cutRecordWhole, []⟩] = some [] := by decide +kernel
  have hiff := listing_after_history_iff (exec_nil ParserCall.step []) hwhole flat_cutRecordWhole
    false cutRecord_flatten
  exact hiff.1.2 (Or.inl rfl)

/-- Behind an error page the same record, cut inside of its fields, is read as a DID without
scope. -/
theorem listing_after_error_page :
    exec ParserCall.step [] [errorPage] = some "<html>".toList ∧
      cutRecord.flatten = joined didMarks [cutRecordWhole] false ∧
      (∀ r ∈ [cutRecordWhole], Flat didMarks r) ∧
      listingAfter .did [] cutRecord [] ≠ listingAfter .did [errorPage] cutRecord [] := by
  refine ⟨by decide +kernel, cutRecord_flatten, flat_cutRecordWhole, fun heq ↦ ?_⟩
  have hscopes : (listingAfter .did [] cutRecord []).map (·.toOption.map (·.map RucioDid.scope)) ≠
      (listingAfter .did [errorPage] cutRecord []).map (·.toOption.map (·.map RucioDid.scope)) := by
    decide +kernel
  exact hscopes (congrArg _ heq)

end FusePosix
