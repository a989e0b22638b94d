import FusePosix.Utils.Did
import FusePosix.Lib.Reassembly

/-!
# The DID stream parser does not see where chunks end

`splitDids` is a line-driven reader with a remainder. On a body of flat records it agrees with the
letter machine of `FusePosix.Lib.Reassembly` on every chunk (`agrees_splitDids`), which is all that
is needed to inherit independence of the cuts.

The agreement is proved one line at a time. The remainder is non-empty exactly while the stream
stands inside of a record, and a line that ends a record then cannot begin with the opening brace:
this is what makes the two tests of `coherentizeDids` decide right
(`coherentizeDids_eq_feed`). The chunk follows by induction on its length, taking off one line after
the other.
-/

namespace FusePosix

open Reassembly

/-- Braces around records, newlines between them. -/
def didMarks : Marks Char where
  opening := '{'
  closing := '}'
  sep := '\n'
  opening_ne_closing := by decide
  opening_ne_sep := by decide
  closing_ne_sep := by decide

/-! ### One line -/

/-- What one line does: the remainder, and the record it completes if any. -/
def lineResult (remainder line : Str) : Str × List Str :=
  ((coherentizeDids remainder line).1,
    if (coherentizeDids remainder line).2 = [] then [] else [(coherentizeDids remainder line).2])

/-- A line that does not end a record goes behind the remainder. -/
theorem lineResult_of_getLast?_ne {remainder line : Str} (h : line.getLast? ≠ some '}') :
    lineResult remainder line = (remainder ++ line, []) := by
  by_cases hrem : remainder = [] <;> simp [lineResult, coherentizeDids, h, hrem]

/-- A line that ends the record of the remainder completes it. -/
theorem lineResult_closing {remainder w : Str} (h : (w ++ ['}']).head? ≠ some '{') :
    lineResult remainder (w ++ ['}']) = ([], [remainder ++ w ++ ['}']]) := by
  have hlast : (w ++ ['}']).getLast? = some '}' := List.getLast?_concat
  have hseen : coherentizeDids remainder (w ++ ['}']) = ([], remainder ++ (w ++ ['}'])) := by
    rw [coherentizeDids, if_neg (not_not.2 hlast), if_pos h]
  simp [lineResult, hseen]

/-- A line that is a whole record leaves the remainder alone. -/
theorem lineResult_whole (remainder w : Str) :
    lineResult remainder ('{' :: (w ++ ['}'])) = (remainder, ['{' :: (w ++ ['}'])]) := by
  have hlast : ('{' :: (w ++ ['}'])).getLast? = some '}' := by
    rw [← List.cons_append, List.getLast?_concat]
  simp [lineResult, coherentizeDids, hlast]

/-- A plain text does not end a record. -/
theorem getLast?_ne_of_plain {w : Str} (h : Plain didMarks w) : w.getLast? ≠ some '}' :=
  fun hlast ↦ h.2.1 (List.mem_of_getLast? hlast)

/-- Inside of a record the rest of its line does not begin with the opening brace. -/
theorem head?_closing_ne_of_plain {w : Str} (h : Plain didMarks w) :
    (w ++ ['}']).head? ≠ some '{' := by
  cases w with
  | nil => decide
  | cons c w =>
    have hc : c ≠ '{' := (plain_cons.1 h).1.1
    simpa using hc

/-- **On a line that fits where the stream stands, the code does what the letter machine does.** -/
theorem coherentizeDids_eq_feed {p q : Phase} {remainder line : Str} (hb : Buffered p remainder)
    (hline : '\n' ∉ line) (h : scan didMarks p line = some q) :
    lineResult remainder line = feed didMarks remainder line ∧
      Buffered q (feed didMarks remainder line).1 := by
  have hnil : lineResult remainder [] = feed didMarks remainder [] := by
    rw [lineResult_of_getLast?_ne (by simp), List.append_nil, feed]
  -- `scan` says what a line that fits can be where the stream stands: plain text, or plain text
  -- with the closing brace at its end, behind the opening one if it is the first of a record
  cases p with
  | closed =>
    obtain ⟨rfl, rfl⟩ := scan_closed_piece hline h
    exact ⟨hnil, hb⟩
  | inside =>
    have hrem : remainder ≠ [] := hb.1 rfl
    rcases scan_inside_piece hline h with ⟨hw, rfl⟩ | ⟨w, hw, rfl, rfl⟩
    · rw [lineResult_of_getLast?_ne (getLast?_ne_of_plain hw), feed_plain hw]
      exact ⟨rfl, by simp [Buffered, hrem]⟩
    · have hfeed : feed didMarks remainder (w ++ ['}']) = ([], [remainder ++ w ++ ['}']]) :=
        feed_plain_closing hw remainder
      show lineResult remainder (w ++ ['}']) = feed didMarks remainder (w ++ ['}']) ∧
        Buffered .closed (feed didMarks remainder (w ++ ['}'])).1
      rw [lineResult_closing (head?_closing_ne_of_plain hw), hfeed]
      exact ⟨rfl, by simp [Buffered]⟩
  | lineStart =>
    have hrem : remainder = [] := by simpa [Buffered] using hb
    subst hrem
    rcases scan_lineStart_piece hline h with ⟨rfl, rfl⟩ | ⟨u, rfl, hu⟩
    · exact ⟨hnil, hb⟩
    have hsep : '\n' ∉ u := fun e ↦ hline (List.mem_cons_of_mem _ e)
    have hopen : ∀ v : Str, feed didMarks [] ('{' :: v) = feed didMarks ['{'] v := by
      intro v
      simp [feed, didMarks]
    show lineResult [] ('{' :: u) = feed didMarks [] ('{' :: u) ∧
      Buffered q (feed didMarks [] ('{' :: u)).1
    rw [hopen]
    rcases scan_inside_piece hsep hu with ⟨hw, rfl⟩ | ⟨w, hw, rfl, rfl⟩
    · have hlast : ('{' :: u).getLast? ≠ some '}' := by
        intro e
        rcases List.mem_cons.1 (List.mem_of_getLast? e) with hc | hc
        · exact absurd hc (by decide)
        · exact hw.2.1 hc
      rw [lineResult_of_getLast?_ne hlast, feed_plain hw]
      exact ⟨rfl, by simp [Buffered]⟩
    · have hfeed : feed didMarks ['{'] (w ++ ['}']) = ([], ['{' :: (w ++ ['}'])]) :=
        feed_plain_closing hw ['{']
      show lineResult [] ('{' :: (w ++ ['}'])) = feed didMarks ['{'] (w ++ ['}']) ∧
        Buffered .closed (feed didMarks ['{'] (w ++ ['}'])).1
      rw [lineResult_whole, hfeed]
      exact ⟨rfl, by simp [Buffered]⟩

/-! ### One chunk -/

/-- The loop only appends to the strings it is given. -/
theorem splitDidsLoop_append (lines : List Str) : ∀ (remainder : Str) (didStrings : List Str),
    splitDidsLoop remainder didStrings lines =
      ((splitDidsLoop remainder [] lines).1,
        didStrings ++ (splitDidsLoop remainder [] lines).2) := by
  induction lines with
  | nil => intro remainder didStrings; simp [splitDidsLoop]
  | cons buffer lines ih =>
    intro remainder didStrings
    simp only [splitDidsLoop]
    split_ifs
    · exact ih _ _
    · rw [List.nil_append, ih _ (didStrings ++ [_]), ih _ [_]]
      simp

theorem splitDids_append (remainder line : Str) (didStrings : List Str) :
    splitDids remainder line didStrings =
      ((splitDids remainder line []).1, didStrings ++ (splitDids remainder line []).2) :=
  splitDidsLoop_append _ _ _

/-- The loop takes off its first line. -/
theorem splitDidsLoop_cons (remainder buffer : Str) (lines : List Str) :
    splitDidsLoop remainder [] (buffer :: lines) =
      ((splitDidsLoop (lineResult remainder buffer).1 [] lines).1,
        (lineResult remainder buffer).2 ++
          (splitDidsLoop (lineResult remainder buffer).1 [] lines).2) := by
  show splitDidsLoop (lineResult remainder buffer).1 (lineResult remainder buffer).2 lines = _
  exact splitDidsLoop_append _ _ _

/-- A chunk without newline is one line, also if it is empty. -/
theorem splitDids_of_notMem {line : Str} (h : '\n' ∉ line) (remainder : Str) :
    splitDids remainder line [] = lineResult remainder line := by
  rw [splitDids, Text.getlines_of_notMem h]
  by_cases hnil : line = []
  · subst hnil
    rw [if_pos rfl, lineResult_of_getLast?_ne (by simp), List.append_nil]
    rfl
  · rw [if_neg hnil, splitDidsLoop_cons]
    simp [splitDidsLoop]

/-- A chunk with a newline is a line and a further chunk. -/
theorem splitDids_append_newline {line : Str} (h : '\n' ∉ line) (remainder rest : Str) :
    splitDids remainder (line ++ '\n' :: rest) [] =
      ((splitDids (lineResult remainder line).1 rest []).1,
        (lineResult remainder line).2 ++ (splitDids (lineResult remainder line).1 rest []).2) := by
  rw [splitDids, Text.getlines_append_cons h, splitDidsLoop_cons]
  rfl

/-- **The chunk parser agrees with the letter machine** on every chunk of a stream of flat
records. -/
theorem agrees_splitDids : Agrees didMarks fun remainder chunk ↦ splitDids remainder chunk [] := by
  intro p q remainder chunk
  induction hn : chunk.length using Nat.strong_induction_on generalizing p remainder chunk with
  | _ n ih =>
    intro hb hscan
    rcases Text.notMem_or_exists_line '\n' chunk with hline | ⟨line, rest, hline, rfl⟩
    · show splitDids remainder chunk [] = _ ∧ _
      rw [splitDids_of_notMem hline]
      exact coherentizeDids_eq_feed hb hline hscan
    · rw [scan_append, Option.bind_eq_some_iff] at hscan
      obtain ⟨r, hr, hrest⟩ := hscan
      obtain ⟨hread, hb'⟩ := coherentizeDids_eq_feed hb hline hr
      -- the newline can only stand outside of a record, and leads to the start of a line
      have hr' : r ≠ .inside ∧ scan didMarks .lineStart rest = some q := by
        cases r <;> simp_all [scan, Phase.next, didMarks]
      have hempty : Buffered .lineStart (feed didMarks remainder line).1 := by
        simpa [Buffered, hr'.1] using hb'
      have hlt : rest.length < n := by
        rw [← hn, List.length_append, List.length_cons]
        omega
      obtain ⟨hchunk, hbuf⟩ := ih _ hlt .lineStart _ rest rfl hempty hr'.2
      have hfeed : feed didMarks remainder (line ++ '\n' :: rest) =
          ((feed didMarks (feed didMarks remainder line).1 rest).1,
            (feed didMarks remainder line).2 ++
              (feed didMarks (feed didMarks remainder line).1 rest).2) := by
        rw [feed_append, show '\n' :: rest = [didMarks.sep] ++ rest from rfl, feed_append, feed_sep]
        rfl
      refine ⟨?_, hfeed ▸ hbuf⟩
      show splitDids remainder (line ++ '\n' :: rest) [] = _
      rw [splitDids_append_newline hline, hread, hfeed]
      show ((splitDids _ rest []).1, _ ++ (splitDids _ rest []).2) = _
      rw [show splitDids _ rest [] = _ from hchunk]

/-! ### Whole bodies -/

/-- Splitting chunk by chunk is reading chunk by chunk, with the strings appended. -/
theorem splitDidsAll_eq_feedAll (payload : List Str) : ∀ (remainder : Str) (didStrings : List Str),
    splitDidsAll remainder payload didStrings =
      ((feedAll (fun remainder chunk ↦ splitDids remainder chunk []) remainder payload).1,
        didStrings ++
          (feedAll (fun remainder chunk ↦ splitDids remainder chunk []) remainder payload).2) := by
  induction payload with
  | nil => intro remainder didStrings; simp [splitDidsAll, feedAll]
  | cons line payload ih =>
    intro remainder didStrings
    rw [splitDidsAll, splitDids_append, ih, feedAll, List.append_assoc]

theorem fillDids_append (mapDid : Str → Except Fault (Table Str Str))
    (fill : Table Str Str → RucioDid) (xs ys : List Str) : ∀ target : List RucioDid,
    fillDids mapDid fill (xs ++ ys) target =
      fillDids mapDid fill xs target >>= fillDids mapDid fill ys := by
  induction xs with
  | nil => intro target; rfl
  | cons x xs ih =>
    intro target
    rw [List.cons_append, fillDids, fillDids]
    rcases mapDid x with e | mappedDid
    · rfl
    · exact ih _

/-- Parsing chunk by chunk is filling in the records that splitting chunk by chunk collects. -/
theorem structurizeAll_eq (mapDid : Str → Except Fault (Table Str Str))
    (fill : Table Str Str → RucioDid) (payload : List Str) :
    ∀ (remainder : Str) (target : List RucioDid),
      structurizeAll (structurizeWith mapDid fill) remainder payload target =
        (fillDids mapDid fill (splitDidsAll remainder payload []).2 target >>= fun dids ↦
          pure ((splitDidsAll remainder payload []).1, dids)) := by
  induction payload with
  | nil => intro remainder target; rfl
  | cons line payload ih =>
    intro remainder target
    have hsplit : splitDidsAll remainder (line :: payload) [] =
        ((splitDidsAll (splitDids remainder line []).1 payload []).1,
          (splitDids remainder line []).2 ++
            (splitDidsAll (splitDids remainder line []).1 payload []).2) := by
      simp only [splitDidsAll_eq_feedAll, feedAll, List.nil_append]
    rw [structurizeAll, structurizeWith, hsplit, fillDids_append]
    rcases fillDids mapDid fill (splitDids remainder line []).2 target with e | dids
    · rfl
    · exact ih _ _

/-- **What holds of the DID of every record holds of every DID of a body.** -/
theorem forall_mem_of_structurizeAll {P : RucioDid → Prop}
    {mapDid : Str → Except Fault (Table Str Str)} {fill : Table Str Str → RucioDid}
    (hfill : ∀ sdid didMap, mapDid sdid = .ok didMap → P (fill didMap)) {chunks : List Str}
    {remainder remainder' : Str} {target dids : List RucioDid} (htarget : ∀ d ∈ target, P d)
    (h : structurizeAll (structurizeWith mapDid fill) remainder chunks target =
      .ok (remainder', dids)) : ∀ d ∈ dids, P d := by
  have hrecords : ∀ (records : List Str) {target dids : List RucioDid}, (∀ d ∈ target, P d) →
      fillDids mapDid fill records target = .ok dids → ∀ d ∈ dids, P d := by
    intro records
    induction records with
    | nil => exact fun htarget h ↦ Except.ok.inj h ▸ htarget
    | cons record records ih =>
      intro target dids htarget h
      obtain ⟨didMap, hmap, h⟩ := bind_eq_ok.1 h
      refine ih (fun d hd ↦ ?_) h
      rcases List.mem_append.1 hd with hd | hd
      · exact htarget d hd
      · exact List.mem_singleton.1 hd ▸ hfill record didMap hmap
  rw [structurizeAll_eq] at h
  obtain ⟨filled, hfilled, hret⟩ := bind_eq_ok.1 h
  obtain ⟨-, rfl⟩ := Prod.mk.inj (Except.ok.inj hret)
  exact hrecords _ htarget hfilled

/-- Splitting a body of flat records, cut anywhere. -/
theorem splitDidsAll_joined {records : List Str} (hflat : ∀ r ∈ records, Flat didMarks r)
    (final : Bool) {chunks : List Str} (hchunks : chunks.flatten = joined didMarks records final)
    (didStrings : List Str) : splitDidsAll [] chunks didStrings = ([], didStrings ++ records) := by
  rw [splitDidsAll_eq_feedAll, feedAll_joined agrees_splitDids hflat final hchunks]

/-- Parsing a body of flat records, cut anywhere. -/
theorem structurizeAll_joined {records : List Str} (hflat : ∀ r ∈ records, Flat didMarks r)
    (final : Bool) {chunks : List Str} (hchunks : chunks.flatten = joined didMarks records final)
    (mapDid : Str → Except Fault (Table Str Str)) (fill : Table Str Str → RucioDid)
    (target : List RucioDid) :
    structurizeAll (structurizeWith mapDid fill) [] chunks target =
      (fillDids mapDid fill records target >>= fun dids ↦ pure ([], dids)) := by
  rw [structurizeAll_eq, splitDidsAll_joined hflat final hchunks, List.nil_append]

/-- **Chunk invariance of the DID stream parser.** Let a body consist of flat records joined by
newlines, and cut it into chunks in any way. The `splitDids` calls on the chunks append exactly the
records, in order, and leave no remainder; and parsing chunk by chunk, with any record reader,
gives what one call on the whole body gives. -/
theorem did_stream_chunk_invariance {records : List Str} (hflat : ∀ r ∈ records, Flat didMarks r)
    (final : Bool) {chunks : List Str}
    (hchunks : chunks.flatten = joined didMarks records final) :
    (∀ didStrings, splitDidsAll [] chunks didStrings = ([], didStrings ++ records)) ∧
    ∀ (mapDid : Str → Except Fault (Table Str Str)) (target : List RucioDid),
      structurizeAll (structurizeWith mapDid didOfMap) [] chunks target =
        structurizeWith mapDid didOfMap [] chunks.flatten target ∧
      structurizeAll (structurizeWith mapDid containerDidOfMap) [] chunks target =
        structurizeWith mapDid containerDidOfMap [] chunks.flatten target := by
  have hwhole : splitDids [] chunks.flatten [] = ([], records) := by
    have hone : [chunks.flatten].flatten = joined didMarks records final := by simpa using hchunks
    exact splitDidsAll_joined hflat final hone []
  have hparse : ∀ (mapDid : Str → Except Fault (Table Str Str)) (fill : Table Str Str → RucioDid)
      (target : List RucioDid), structurizeAll (structurizeWith mapDid fill) [] chunks target =
        structurizeWith mapDid fill [] chunks.flatten target := by
    intro mapDid fill target
    rw [structurizeAll_joined hflat final hchunks, structurizeWith, hwhole]
  exact ⟨splitDidsAll_joined hflat final hchunks, fun mapDid target ↦
    ⟨hparse mapDid didOfMap target, hparse mapDid containerDidOfMap target⟩⟩

/-- The invariance on two records in three chunks, cut inside of a record each time. -/
theorem did_stream_chunk_invariance_three_chunks :
    splitDidsAll [] [['{', 'a'], ['}', '\n', '{'], ['b', '}']] [] =
      ([], [['{', 'a', '}'], ['{', 'b', '}']]) := by
  have hflat : ∀ r ∈ [['{', 'a', '}'], ['{', 'b', '}']], Flat didMarks r := by
    intro r hr
    rcases List.mem_pair.1 hr with rfl | rfl
    · exact ⟨['a'], by simp [Plain, didMarks], rfl⟩
    · exact ⟨['b'], by simp [Plain, didMarks], rfl⟩
  exact (did_stream_chunk_invariance hflat false rfl).1 []

end FusePosix
