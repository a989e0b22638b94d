import FusePosix.Utils.Remainder
import Mathlib.Logic.Function.Basic

/-!
# Listings that are read at the same time

Several threads parse a body each. Every thread has its own vector, and all of them share the one
remainder. A call on a chunk is one step here; a schedule is the list of the threads in the order in
which their calls happen.

The remainder belongs to the thread that stands inside of a record. As long as there is at most one
such thread between any two calls, the others only hand in whole records, which pass by the
remainder, so everybody gets what is theirs (`separate_step`). As soon as a second thread stands
inside of a record its piece goes behind the other piece, and a text with two opening braces stays
around until one of the threads is handed it as a record (`mixed_step`). So the condition is exact:
`concurrent_listings_iff`.
-/

namespace FusePosix

open Reassembly Transition

variable {ι β : Type}

/-! ### The system -/

/-- How far the loop of a thread has come: the chunks it has parsed and has still to parse, and what
its vector holds. -/
structure ListingThread (β : Type) where
  done : List Str
  todo : List Str
  got : List β

/-- The threads and the remainder they share. -/
structure Listings (ι β : Type) where
  remainder : Str
  thread : ι → ListingThread β

/-- A parser call: remainder, chunk and vector in, remainder and vector out. -/
abbrev ChunkParser (β : Type) := Str → Str → List β → Except Fault (Str × List β)

/-- A body as records only. -/
def splitting : ChunkParser Str := fun remainder chunk got ↦ .ok (splitDids remainder chunk got)

namespace Listings

/-- The next call of a thread. -/
def step [DecidableEq ι] (parse : ι → ChunkParser β) (s : Listings ι β) (i : ι) :
    Option (Listings ι β) :=
  match (s.thread i).todo with
  | [] => none
  | chunk :: todo =>
    (parse i s.remainder chunk (s.thread i).got).toOption.map fun parsed ↦
      ⟨parsed.1,
        Function.update s.thread i ⟨(s.thread i).done ++ [chunk], todo, parsed.2⟩⟩

/-- The threads before their first call. -/
def start (chunks : ι → List Str) : Listings ι β := ⟨[], fun i ↦ ⟨[], chunks i, []⟩⟩

/-- All calls have been made. -/
def Done (s : Listings ι β) : Prop := ∀ i, (s.thread i).todo = []

/-- The thread stands inside of a record of its body. -/
def Inside (s : Listings ι β) (i : ι) : Prop :=
  scan didMarks .lineStart (s.thread i).done.flatten = some .inside

/-- At most one thread stands inside of a record. -/
def OneInside (s : Listings ι β) : Prop := ∀ i j, s.Inside i → s.Inside j → i = j

end Listings

/-! ### One call -/

/-- What one call does to a thread that stands in phase `p` and gets to phase `q`. -/
structure Turn (s t : Listings ι Str) (i : ι) (chunk : Str) (p q : Phase) : Prop where
  before : scan didMarks .lineStart (s.thread i).done.flatten = some p
  across : scan didMarks p chunk = some q
  done : (t.thread i).done = (s.thread i).done ++ [chunk]
  todo : (s.thread i).todo = chunk :: (t.thread i).todo
  got : (t.thread i).got = (s.thread i).got ++ (splitDids s.remainder chunk []).2
  remainder : t.remainder = (splitDids s.remainder chunk []).1
  others : ∀ j, j ≠ i → t.thread j = s.thread j

/-- What a thread has parsed and has still to parse is its body. -/
def Listings.Reading (bodies : ι → List Str) (s : Listings ι β) : Prop :=
  ∀ i, (s.thread i).done ++ (s.thread i).todo = bodies i

/-- The bodies have their marks where they should, and end outside of a record. -/
def Complete (bodies : ι → List Str) : Prop :=
  ∀ i, ∃ q, scan didMarks .lineStart (bodies i).flatten = some q ∧ q ≠ .inside

section Turn

variable {bodies : ι → List Str} {s t : Listings ι Str} {i : ι} {chunk : Str} {p q : Phase}

/-- A step takes the next chunk of the thread. -/
theorem step_splitting_eq_some [DecidableEq ι]
    (h : Listings.step (fun _ ↦ splitting) s i = some t) :
    ∃ chunk todo, (s.thread i).todo = chunk :: todo ∧
      t = ⟨(splitDids s.remainder chunk []).1, Function.update s.thread i
        ⟨(s.thread i).done ++ [chunk], todo,
          (s.thread i).got ++ (splitDids s.remainder chunk []).2⟩⟩ := by
  rw [Listings.step] at h
  split at h
  · cases h
  · rename_i chunk todo htodo
    obtain rfl := Option.some.inj h
    refine ⟨chunk, todo, htodo, ?_⟩
    rw [splitDids_append]

/-- **Every step is a turn**, and goes on with the same bodies. -/
theorem exists_turn [DecidableEq ι] (hbodies : Complete bodies) (hs : s.Reading bodies)
    (h : Listings.step (fun _ ↦ splitting) s i = some t) :
    t.Reading bodies ∧ ∃ chunk p q, Turn s t i chunk p q := by
  obtain ⟨chunk, todo, htodo, rfl⟩ := step_splitting_eq_some h
  have hbody : (s.thread i).done ++ chunk :: todo = bodies i := htodo ▸ hs i
  obtain ⟨final, hscan, -⟩ := hbodies i
  rw [← hbody, List.flatten_append, scan_append, Option.bind_eq_some_iff] at hscan
  obtain ⟨p, hp, hscan⟩ := hscan
  rw [List.flatten_cons, scan_append, Option.bind_eq_some_iff] at hscan
  obtain ⟨q, hq, -⟩ := hscan
  refine ⟨fun j ↦ ?_, chunk, p, q, hp, hq, ?_, ?_, ?_, rfl, fun j hj ↦ Function.update_of_ne hj _ _⟩
  · rcases eq_or_ne j i with rfl | hj
    · simp [Function.update_self, ← hbody]
    · simpa [Function.update_of_ne hj] using hs j
  · simp [Function.update_self]
  · simp [Function.update_self, htodo]
  · simp [Function.update_self]

theorem Turn.flatten (h : Turn s t i chunk p q) :
    (t.thread i).done.flatten = (s.thread i).done.flatten ++ chunk := by
  rw [h.done, List.flatten_append, List.flatten_singleton]

theorem Turn.inside_before (h : Turn s t i chunk p q) : s.Inside i ↔ p = .inside := by
  rw [Listings.Inside, h.before, Option.some.injEq]

theorem Turn.inside_self (h : Turn s t i chunk p q) : t.Inside i ↔ q = .inside := by
  rw [Listings.Inside, h.flatten, scan_append, h.before, Option.bind_some, h.across,
    Option.some.injEq]

theorem Turn.inside_other (h : Turn s t i chunk p q) {j : ι} (hj : j ≠ i) :
    t.Inside j ↔ s.Inside j := by
  rw [Listings.Inside, h.others j hj, Listings.Inside]

end Turn

/-! ### What a chunk does to the remainder -/

section Chunk

variable {p q : Phase} {chunk : Str}

/-- From outside of a record to outside of a record the letter machine keeps nothing. -/
theorem buffered_feed {x : Str} (h : scan didMarks .lineStart x = some p) :
    Buffered p (feed didMarks [] x).1 :=
  (agrees_splitDids .lineStart p [] x (by simp [Buffered]) h).2

/-- **A chunk that begins outside of a record does not look at the remainder**, and what it begins
goes behind it. -/
theorem splitDids_outside (hp : p ≠ .inside) (h : scan didMarks p chunk = some q) (old : Str) :
    splitDids old chunk [] = (old ++ (feed didMarks [] chunk).1, (feed didMarks [] chunk).2) := by
  have hnone := firstCut_eq_none_of_forall (completes_none_of_scan hp h) [] []
  have hold := splitDidsLoop_of_firstCut_eq_none old _ [] [] hnone
  rw [List.append_nil] at hold
  have hfeed : splitDids [] chunk [] = feed didMarks [] chunk :=
    (agrees_splitDids p q [] chunk (by simp [Buffered, hp]) h).1
  rw [splitDids] at hfeed
  rw [splitDids, hold, hfeed]

/-- A chunk that begins inside of a record goes behind the remainder, or completes a record with
it. -/
theorem splitDids_inside (h : scan didMarks .inside chunk = some q) (old : Str) :
    (q = .inside ∧ splitDids old chunk [] = (old ++ chunk, [])) ∨
      ∃ w, old ++ w ∈ (splitDids old chunk []).2 := by
  rcases chunk_inside h with ⟨hplain, rfl⟩ | ⟨w, rest, -, hw, -, -, hlines⟩
  · refine Or.inl ⟨rfl, ?_⟩
    rw [splitDids_of_notMem hplain.2.2, lineResult_of_getLast?_ne (getLast?_ne_of_plain hplain)]
  · refine Or.inr ⟨w ++ ['}'], ?_⟩
    rw [splitDids, hlines, splitDidsLoop_step, lineResult_closing (head?_closing_ne_of_plain hw),
      splitDidsLoop_append]
    simp

end Chunk

/-! ### Everybody gets what is theirs -/

/-- Every thread has the records of what it has parsed, and the remainder is the piece of the thread
that stands inside of a record. -/
structure Separate (s : Listings ι Str) : Prop where
  got : ∀ i, (s.thread i).got = (feed didMarks [] (s.thread i).done.flatten).2
  own : ∀ i, s.Inside i → s.remainder = (feed didMarks [] (s.thread i).done.flatten).1
  free : (∀ i, ¬s.Inside i) → s.remainder = []

/-- Several pieces of records have come together: somebody has been handed them, or they wait for
somebody who stands inside of a record. -/
def Mixed (s : Listings ι Str) : Prop :=
  (∃ i, ∃ r ∈ (s.thread i).got, 2 ≤ r.count '{') ∨
    (2 ≤ s.remainder.count '{' ∧ ∃ i, s.Inside i)

section Sharing

variable {bodies : ι → List Str} {s t : Listings ι Str} {i : ι} {chunk : Str} {p q : Phase}

/-- What a turn does as long as at most one thread stands inside of a record. -/
theorem Turn.splitDids_eq (h : Turn s t i chunk p q) (hs : Separate s) (hone : s.OneInside)
    (hone' : t.OneInside) :
    (splitDids s.remainder chunk []).2 =
        (feed didMarks (feed didMarks [] (s.thread i).done.flatten).1 chunk).2 ∧
      ((∀ j, j ≠ i → ¬s.Inside j) →
        t.remainder = (feed didMarks [] (t.thread i).done.flatten).1) ∧
      ∀ j, j ≠ i → s.Inside j → t.remainder = s.remainder := by
  have hbuf := buffered_feed h.before
  have hfeed : (feed didMarks [] (t.thread i).done.flatten).1 =
      (feed didMarks (feed didMarks [] (s.thread i).done.flatten).1 chunk).1 := by
    rw [h.flatten, feed_append]
  by_cases hother : ∃ j, j ≠ i ∧ s.Inside j
  · -- another thread has a piece in the remainder, so this one hands in whole records
    obtain ⟨j, hj, hin⟩ := hother
    have hp : p ≠ .inside := fun hp ↦ hj (hone j i hin (h.inside_before.2 hp))
    have hq : q ≠ .inside := fun hq ↦
      hj (hone' j i ((h.inside_other hj).2 hin) (h.inside_self.2 hq))
    have hempty : (feed didMarks [] (s.thread i).done.flatten).1 = [] := by
      simpa [Buffered, hp] using hbuf
    have hkept : (feed didMarks [] chunk).1 = [] := by
      have hafter := (agrees_splitDids p q [] chunk (by simp [Buffered, hp]) h.across).2
      simpa [Buffered, hq] using hafter
    rw [h.remainder, splitDids_outside hp h.across, hempty, hkept, List.append_nil]
    exact ⟨rfl, fun hnone ↦ absurd hin (hnone j hj), fun _ _ _ ↦ rfl⟩
  · -- the remainder is this thread's own
    have hown : s.remainder = (feed didMarks [] (s.thread i).done.flatten).1 := by
      by_cases hin : s.Inside i
      · exact hs.own i hin
      · have hnone : ∀ j, ¬s.Inside j := fun j hj ↦
          hin (by_contra fun hne ↦ hother ⟨j, fun heq ↦ hne (heq ▸ hj), hj⟩)
        have hp : p ≠ .inside := fun hp ↦ hin (h.inside_before.2 hp)
        have hempty : (feed didMarks [] (s.thread i).done.flatten).1 = [] := by
          simpa [Buffered, hp] using hbuf
        rw [hs.free hnone, hempty]
    have hread : splitDids s.remainder chunk [] =
        feed didMarks (feed didMarks [] (s.thread i).done.flatten).1 chunk := by
      rw [hown]
      exact (agrees_splitDids p q _ chunk hbuf h.across).1
    rw [h.remainder, hread, hfeed]
    exact ⟨rfl, fun _ ↦ rfl, fun j hj hin ↦ absurd ⟨j, hj, hin⟩ hother⟩

/-- **As long as at most one thread stands inside of a record**, a turn keeps the threads apart. -/
theorem separate_turn (h : Turn s t i chunk p q) (hs : Separate s) (hone : s.OneInside)
    (hone' : t.OneInside) : Separate t := by
  obtain ⟨hrecords, hself, hother⟩ := h.splitDids_eq hs hone hone'
  refine ⟨fun j ↦ ?_, fun j hj ↦ ?_, fun hnone ↦ ?_⟩
  · rcases eq_or_ne j i with rfl | hj
    · rw [h.got, hs.got, hrecords, h.flatten, feed_append]
    · rw [h.others j hj, hs.got]
  · rcases eq_or_ne j i with rfl | heq
    · exact hself fun k hk hin ↦ hk (hone' k j ((h.inside_other hk).2 hin) hj)
    · have hin := (h.inside_other heq).1 hj
      rw [hother j heq hin, h.others j heq, hs.own j hin]
  · have hq : q ≠ .inside := fun hq ↦ hnone i (h.inside_self.2 hq)
    have hscan : scan didMarks .lineStart (t.thread i).done.flatten = some q := by
      rw [h.flatten, scan_append, h.before, Option.bind_some, h.across]
    rw [hself fun j hj hin ↦ hnone j ((h.inside_other hj).2 hin)]
    simpa [Buffered, hq] using buffered_feed hscan

/-! ### Pieces that have come together -/

/-- A piece of a record has its opening brace. -/
theorem one_le_count_of_inside {x : Str} (h : scan didMarks .lineStart x = some .inside) :
    1 ≤ (feed didMarks [] x).1.count '{' :=
  List.count_pos_iff.2 (opening_mem_feed x .lineStart [] (by simp) h)

/-- **When a second thread gets inside of a record, two pieces come together.** -/
theorem mixed_of_two_inside (h : Turn s t i chunk p q) (hs : Separate s) (hone : s.OneInside)
    (htwo : ¬t.OneInside) : Mixed t := by
  -- one of the two threads is the one whose turn it was
  obtain ⟨j, hj, hin, hself⟩ : ∃ j, j ≠ i ∧ s.Inside j ∧ t.Inside i := by
    by_contra hnone
    refine htwo fun k l hk hl ↦ by_contra fun hne ↦ ?_
    rcases eq_or_ne k i with rfl | hki
    · exact hnone ⟨l, fun heq ↦ hne heq.symm, (h.inside_other fun heq ↦ hne heq.symm).1 hl, hk⟩
    · rcases eq_or_ne l i with rfl | hli
      · exact hnone ⟨k, hki, (h.inside_other hki).1 hk, hl⟩
      · exact hne (hone k l ((h.inside_other hki).1 hk) ((h.inside_other hli).1 hl))
  have hp : p ≠ .inside := fun hp ↦ hj (hone j i hin (h.inside_before.2 hp))
  obtain rfl := h.inside_self.1 hself
  have hempty : (feed didMarks [] (s.thread i).done.flatten).1 = [] := by
    simpa [Buffered, hp] using buffered_feed h.before
  have hnew : 1 ≤ (feed didMarks [] chunk).1.count '{' := by
    have hpiece : 1 ≤ (feed didMarks [] ((s.thread i).done.flatten ++ chunk)).1.count '{' := by
      refine one_le_count_of_inside ?_
      rw [scan_append, h.before, Option.bind_some, h.across]
    rwa [feed_append, hempty] at hpiece
  have hold : 1 ≤ s.remainder.count '{' := by
    rw [hs.own j hin]
    exact one_le_count_of_inside hin
  refine Or.inr ⟨?_, i, hself⟩
  rw [h.remainder, splitDids_outside hp h.across, List.count_append]
  omega

/-- **Pieces that have come together stay together** until somebody is handed them. -/
theorem mixed_turn (h : Turn s t i chunk p q) (hs : Mixed s) : Mixed t := by
  rcases hs with ⟨j, r, hr, hcount⟩ | ⟨hcount, j, hin⟩
  · refine Or.inl ⟨j, r, ?_, hcount⟩
    rcases eq_or_ne j i with rfl | hj
    · rw [h.got]
      exact List.mem_append_left _ hr
    · rwa [h.others j hj]
  · by_cases hp : p = .inside
    · subst hp
      rcases splitDids_inside h.across s.remainder with ⟨rfl, hsplit⟩ | ⟨w, hw⟩
      · refine Or.inr ⟨?_, i, h.inside_self.2 rfl⟩
        rw [h.remainder, hsplit, List.count_append]
        omega
      · refine Or.inl ⟨i, s.remainder ++ w, ?_, ?_⟩
        · rw [h.got]
          exact List.mem_append_right _ hw
        · rw [List.count_append]
          omega
    · have hj : j ≠ i := fun heq ↦ hp (h.inside_before.1 (heq ▸ hin))
      refine Or.inr ⟨?_, j, (h.inside_other hj).2 hin⟩
      rw [h.remainder, splitDids_outside hp h.across, List.count_append]
      omega

end Sharing

/-! ### Runs -/

section Runs

variable {bodies : ι → List Str}

theorem reading_start : (Listings.start bodies : Listings ι β).Reading bodies := fun _ ↦ rfl

theorem separate_start : Separate (Listings.start bodies : Listings ι Str) :=
  ⟨fun _ ↦ rfl, fun _ ↦ nofun, fun _ ↦ rfl⟩

theorem oneInside_start : (Listings.start bodies : Listings ι Str).OneInside :=
  fun _ _ ↦ nofun

variable [DecidableEq ι]

/-- A schedule of calls that only split. -/
abbrev splits (s : Listings ι Str) (schedule : List ι) : Option (Listings ι Str) :=
  exec (Listings.step fun _ ↦ splitting) s schedule

/-- What every run keeps. -/
theorem reading_run (hbodies : Complete bodies) {s u : Listings ι Str} {schedule : List ι}
    (hs : s.Reading bodies) (h : splits s schedule = some u) :
    u.Reading bodies ∧ (Mixed s → Mixed u) := by
  refine @run_induction _ _ _ s (fun _ ↦ True)
    (fun _ t ↦ t.Reading bodies ∧ (Mixed s → Mixed t)) ⟨hs, id⟩ ?_ _ (fun _ _ ↦ trivial) _ h
  rintro - i t t' ⟨hread, hmixed⟩ - hstep
  obtain ⟨hread', chunk, p, q, hturn⟩ := exists_turn hbodies hread hstep
  exact ⟨hread', fun hs ↦ mixed_turn hturn (hmixed hs)⟩

/-- **A run keeps the threads apart exactly if it never has two of them inside of a record.** -/
theorem separate_or_mixed (hbodies : Complete bodies) (schedule : List ι) :
    ∀ s u : Listings ι Str, s.Reading bodies → Separate s → s.OneInside →
      splits s schedule = some u →
      (Along (Listings.step fun _ ↦ splitting) Listings.OneInside s schedule ∧ Separate u) ∨
        (¬Along (Listings.step fun _ ↦ splitting) Listings.OneInside s schedule ∧ Mixed u) := by
  induction schedule with
  | nil =>
    intro s u _ hsep hone h
    obtain rfl : s = u := Option.some.inj h
    exact Or.inl ⟨hone, hsep⟩
  | cons i schedule ih =>
    intro s u hread hsep hone h
    rw [splits, exec_cons, Option.bind_eq_some_iff] at h
    obtain ⟨t, hstep, hrest⟩ := h
    obtain ⟨hread', chunk, p, q, hturn⟩ := exists_turn hbodies hread hstep
    have honly : ∀ t', Listings.step (fun _ ↦ splitting) s i = some t' → t' = t :=
      fun t' ht' ↦ Option.some.inj (ht'.symm.trans hstep)
    by_cases hone' : t.OneInside
    · refine (ih t u hread' (separate_turn hturn hsep hone hone') hone' hrest).imp ?_ ?_
      · rintro ⟨halong, hu⟩
        exact ⟨⟨hone, fun t' ht' ↦ honly t' ht' ▸ halong⟩, hu⟩
      · rintro ⟨halong, hu⟩
        exact ⟨fun hall ↦ halong (hall.2 t hstep), hu⟩
    · refine Or.inr ⟨fun hall ↦ hone' (along_start (hall.2 t hstep)), ?_⟩
      exact (reading_run hbodies hread' hrest).2 (mixed_of_two_inside hturn hsep hone hone')

/-- A flat record has one opening brace. -/
theorem count_of_flat {r : Str} (h : Flat didMarks r) : r.count '{' = 1 := by
  obtain ⟨w, hw, rfl⟩ := h
  have hopen : w.count '{' = 0 := List.count_eq_zero.2 hw.1
  show (('{' :: (w ++ ['}'])) : Str).count '{' = 1
  rw [List.count_cons_self, List.count_append, hopen]
  rfl

/-- **Behind a complete run every thread has its own records, or somebody has pieces of
several.** -/
theorem got_eq_iff {records : ι → List Str} {final : ι → Bool}
    (hflat : ∀ i, ∀ r ∈ records i, Flat didMarks r)
    (hbodies : ∀ i, (bodies i).flatten = joined didMarks (records i) (final i))
    {schedule : List ι} {u : Listings ι Str} (h : splits (Listings.start bodies) schedule = some u)
    (hdone : u.Done) :
    (∀ i, (u.thread i).got = records i) ↔
      Along (Listings.step fun _ ↦ splitting) Listings.OneInside (Listings.start bodies)
        schedule := by
  have hcomplete : Complete bodies := fun i ↦ hbodies i ▸ scan_joined (hflat i) (final i)
  have hall : ∀ i, (u.thread i).done = bodies i := by
    intro i
    have hread := (reading_run hcomplete reading_start h).1 i
    rwa [hdone i, List.append_nil] at hread
  rcases separate_or_mixed hcomplete schedule _ u reading_start separate_start oneInside_start h
    with ⟨halong, hsep⟩ | ⟨halong, hmixed⟩
  · refine iff_of_true (fun i ↦ ?_) halong
    rw [hsep.got i, hall i, hbodies i, feed_joined (hflat i)]
  · refine iff_of_false (fun hgot ↦ ?_) halong
    rcases hmixed with ⟨i, r, hr, hcount⟩ | ⟨-, i, hin⟩
    · rw [count_of_flat (hflat i r (hgot i ▸ hr))] at hcount
      omega
    · obtain ⟨q, hq, hout⟩ := hcomplete i
      rw [Listings.Inside, hall i, hq] at hin
      exact hout (Option.some.inj hin)

/-! ### From records to DIDs -/

/-- The vectors of a run that parses are filled in from the records of a run that splits. -/
structure Fills (k : ι → Structurizer) (s : Listings ι Str) (d : Listings ι RucioDid) : Prop where
  remainder : d.remainder = s.remainder
  done : ∀ i, (d.thread i).done = (s.thread i).done
  todo : ∀ i, (d.thread i).todo = (s.thread i).todo
  got : ∀ i, fillDids mapDid (k i).fill (s.thread i).got [] = .ok (d.thread i).got

/-- The vectors can be filled in. -/
def Fillable (k : ι → Structurizer) (s : Listings ι Str) : Prop :=
  ∀ i, ∃ dids, fillDids mapDid (k i).fill (s.thread i).got [] = .ok dids

variable {k : ι → Structurizer} {s t : Listings ι Str} {d : Listings ι RucioDid} {i : ι}

/-- What can be filled in behind a step can be filled in before it. -/
theorem fillable_of_step (h : Listings.step (fun _ ↦ splitting) s i = some t) (ht : Fillable k t) :
    Fillable k s := by
  obtain ⟨chunk, todo, -, rfl⟩ := step_splitting_eq_some h
  intro j
  obtain ⟨dids, hdids⟩ := ht j
  rcases eq_or_ne j i with rfl | hj
  · simp only [Function.update_self, fillDids_append] at hdids
    obtain ⟨dids', hdids', -⟩ := bind_eq_ok.1 hdids
    exact ⟨dids', hdids'⟩
  · exact ⟨dids, by simpa [Function.update_of_ne hj] using hdids⟩

theorem fillable_of_run (schedule : List ι) : ∀ {s u : Listings ι Str},
    splits s schedule = some u → Fillable k u → Fillable k s := by
  induction schedule with
  | nil =>
    intro s u h hu
    obtain rfl : s = u := Option.some.inj h
    exact hu
  | cons i schedule ih =>
    intro s u h hu
    rw [splits, exec_cons, Option.bind_eq_some_iff] at h
    obtain ⟨t, hstep, hrest⟩ := h
    exact fillable_of_step hstep (ih hrest hu)

/-- **A call that parses fills in what a call that splits finds.** -/
theorem fills_step (hd : Fills k s d) (h : Listings.step (fun _ ↦ splitting) s i = some t)
    (ht : Fillable k t) :
    ∃ d', Listings.step (fun i ↦ (k i).run) d i = some d' ∧ Fills k t d' := by
  obtain ⟨chunk, todo, htodo, rfl⟩ := step_splitting_eq_some h
  obtain ⟨dids, hdids⟩ := ht i
  simp only [Function.update_self] at hdids
  have hparse : (k i).run d.remainder chunk (d.thread i).got =
      .ok ((splitDids s.remainder chunk []).1, dids) := by
    rw [fillDids_append, hd.got, ok_bind] at hdids
    rw [Structurizer.run_eq, structurizeWith, hd.remainder, hdids, ok_bind, pure_eq_ok]
  refine ⟨⟨(splitDids s.remainder chunk []).1, Function.update d.thread i
    ⟨(d.thread i).done ++ [chunk], todo, dids⟩⟩, ?_, rfl, fun j ↦ ?_, fun j ↦ ?_, fun j ↦ ?_⟩
  · rw [Listings.step, hd.todo, htodo]
    simp only [hparse]
    rfl
  all_goals
    rcases eq_or_ne j i with rfl | hj
    · simp [Function.update_self, hd.done, hdids]
    · simp [Function.update_of_ne hj, hd.done, hd.todo, hd.got]

theorem fills_run (schedule : List ι) : ∀ {s u : Listings ι Str} {d : Listings ι RucioDid},
    Fills k s d → splits s schedule = some u → Fillable k u →
      ∃ d', exec (Listings.step fun i ↦ (k i).run) d schedule = some d' ∧ Fills k u d' := by
  induction schedule with
  | nil =>
    intro s u d hd h _
    obtain rfl : s = u := Option.some.inj h
    exact ⟨d, rfl, hd⟩
  | cons i schedule ih =>
    intro s u d hd h hu
    rw [splits, exec_cons, Option.bind_eq_some_iff] at h
    obtain ⟨t, hstep, hrest⟩ := h
    obtain ⟨d', hstep', hd'⟩ := fills_step hd hstep (fillable_of_run schedule hrest hu)
    obtain ⟨d'', hrun, hd''⟩ := ih hd' hrest hu
    refine ⟨d'', ?_, hd''⟩
    rw [exec_cons, hstep', Option.bind_some, hrun]

end Runs

/-! ### When listings mix -/

/-- **When concurrent listings mix.** Let threads parse a complete body of flat records each, cut
into chunks in any way, and take any schedule of all their calls. Every thread is handed exactly the
records of its own body if and only if at no moment two threads stand inside of a record. If that is
so and the records can be read, the calls return and every vector holds the DIDs of its own body. -/
theorem concurrent_listings_iff [DecidableEq ι] {records : ι → List Str} {final : ι → Bool}
    {bodies : ι → List Str} (hflat : ∀ i, ∀ r ∈ records i, Flat didMarks r)
    (hbodies : ∀ i, (bodies i).flatten = joined didMarks (records i) (final i))
    {schedule : List ι} {u : Listings ι Str}
    (h : splits (Listings.start bodies) schedule = some u) (hdone : u.Done) :
    ((∀ i, (u.thread i).got = records i) ↔
      Along (Listings.step fun _ ↦ splitting) Listings.OneInside (Listings.start bodies)
        schedule) ∧
    (Along (Listings.step fun _ ↦ splitting) Listings.OneInside (Listings.start bodies) schedule →
      ∀ (k : ι → Structurizer) (dids : ι → List RucioDid),
        (∀ i, fillDids mapDid (k i).fill (records i) [] = .ok (dids i)) →
        ∃ d, exec (Listings.step fun i ↦ (k i).run) (Listings.start bodies) schedule = some d ∧
          d.Done ∧ ∀ i, (d.thread i).got = dids i) := by
  have hiff := got_eq_iff hflat hbodies h hdone
  refine ⟨hiff, fun halong k dids hdids ↦ ?_⟩
  have hgot := hiff.2 halong
  have hstart : Fills k (Listings.start bodies) (Listings.start bodies) :=
    ⟨rfl, fun _ ↦ rfl, fun _ ↦ rfl, fun _ ↦ rfl⟩
  obtain ⟨d, hrun, hd⟩ := fills_run schedule hstart h fun i ↦ ⟨dids i, by rw [hgot i, hdids i]⟩
  refine ⟨d, hrun, fun i ↦ (hd.todo i).trans (hdone i), fun i ↦ ?_⟩
  have hfilled := hd.got i
  rw [hgot i, hdids i] at hfilled
  exact (Except.ok.inj hfilled).symm

/-! ### Two threads -/

/-- The record of a file with a name of one letter. -/
def namedRecord (name : Bool) : Str :=
  "\x7b\"scope\": \"s\", \"name\": \"".toList ++ [if name then 'b' else 'a'] ++ "\"\x7d".toList

/-- The record, cut inside of a field. -/
def halves (name : Bool) : List Str := [(namedRecord name).take 18, (namedRecord name).drop 18]

theorem flat_namedRecord (name : Bool) : ∀ r ∈ [namedRecord name], Flat didMarks r := by
  intro r hr
  rw [List.mem_singleton.1 hr]
  refine ⟨((namedRecord name).drop 1).dropLast, ?_, ?_⟩ <;> cases name
  · exact ⟨by decide +kernel, by decide +kernel, by decide +kernel⟩
  · exact ⟨by decide +kernel, by decide +kernel, by decide +kernel⟩
  · decide +kernel
  · decide +kernel

theorem halves_flatten (name : Bool) :
    (halves name).flatten = joined didMarks [namedRecord name] false := by
  cases name <;> decide +kernel

/-- One thread after the other. -/
theorem concurrent_listings_iff_in_turn :
    ∃ u, splits (Listings.start halves) [false, false, true, true] = some u ∧
      ((∀ i, (u.thread i).got = [namedRecord i]) ↔
        Along (Listings.step fun _ ↦ splitting) Listings.OneInside (Listings.start halves)
          [false, false, true, true]) := by
  have hrun : (splits (Listings.start halves) [false, false, true, true]).any (fun u ↦
      (u.thread false).todo.isEmpty && (u.thread true).todo.isEmpty) = true := by decide +kernel
  obtain ⟨u, hu, htodo⟩ := (Option.any_eq_true _ _).1 hrun
  obtain ⟨hfalse, htrue⟩ := Bool.and_eq_true_iff.1 htodo
  refine ⟨u, hu, (concurrent_listings_iff flat_namedRecord halves_flatten hu
    fun i ↦ ?_).1⟩
  cases i
  · exact List.isEmpty_iff.1 hfalse
  · exact List.isEmpty_iff.1 htrue

/-- Two threads in alternation. The second one gets a DID without a name. -/
theorem concurrent_listings_mixed :
    (∀ i, ∀ r ∈ [namedRecord i], Flat didMarks r) ∧
      (∀ i, (halves i).flatten = joined didMarks [namedRecord i] false) ∧
      ∃ d, exec (Listings.step fun _ ↦ structurizeDid) (Listings.start halves)
          [false, true, false, true] = some d ∧ d.Done ∧
        fillDids mapDid didOfMap [namedRecord true] [] ≠ .ok (d.thread true).got := by
  refine ⟨flat_namedRecord, halves_flatten, ?_⟩
  have hrun : (exec (Listings.step fun _ ↦ structurizeDid) (Listings.start halves)
      [false, true, false, true]).any (fun d ↦ (d.thread false).todo.isEmpty &&
        (d.thread true).todo.isEmpty && (d.thread true).got.map RucioDid.name == [[]]) = true := by
    decide +kernel
  obtain ⟨d, hd, hcheck⟩ := (Option.any_eq_true _ _).1 hrun
  simp only [Bool.and_eq_true, List.isEmpty_iff, beq_iff_eq] at hcheck
  obtain ⟨⟨hfalse, htrue⟩, hnames⟩ := hcheck
  refine ⟨d, hd, fun i ↦ by cases i <;> assumption, fun heq ↦ ?_⟩
  have hown : (fillDids mapDid didOfMap [namedRecord true] []).toOption.map (·.map RucioDid.name) =
      some [['b']] := by decide +kernel
  rw [heq] at hown
  have hsame : [['b']] = ([[]] : List Str) := (Option.some.inj hown).symm.trans hnames
  exact absurd hsame (by decide)

/-- Braces are not read. If nothing but the opening ones comes apart, the texts are mixed, and the
DIDs are right. -/
example : ((exec (Listings.step fun _ ↦ structurizeDid)
    (Listings.start fun name ↦ [(namedRecord name).take 1, (namedRecord name).drop 1])
    [false, true, false, true]).map fun d ↦ [(d.thread false).got, (d.thread true).got]) =
      some [[⟨['s'], none, ['a'], [], none, 0⟩], [⟨['s'], none, ['b'], [], none, 0⟩]] := by
  decide +kernel

end FusePosix
