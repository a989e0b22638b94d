import FusePosix.Utils.Records
import FusePosix.Utils.Remainder

/-!
# When the pairing loop stays in its list

`map_did` steps through its list by two and reads one position behind each step, whatever the list
holds. So it stays in bounds exactly on lists of even length (`pairsInBounds_iff`), and how long the
list is, is decided by the separators of the text and by what stands at its end: every colon and
every comma closes a word, and a word that is still open at the end counts as well, while an empty
one is dropped.

That gives a condition a reader can check on the text, `InStep`. Records of the DID grammar meet it,
and so does nothing else in particular: a colon in a value is enough to break it.
-/

namespace FusePosix

open Reassembly

/-! ### The loop -/

/-- Every index the pairing loop uses lies in its list. -/
def PairsInBounds (keyValues : List Str) : Prop :=
  ∀ i, 2 * i < keyValues.length → 2 * i + 1 < keyValues.length

/-- **The loop stays in its list** exactly if the list has even length. -/
theorem pairsInBounds_iff (keyValues : List Str) :
    PairsInBounds keyValues ↔ keyValues.length % 2 = 0 := by
  constructor
  · intro h
    have hlast := h (keyValues.length / 2)
    omega
  · intro h i hi
    omega

/-- The loop of the model ends in undefined behaviour exactly if an index leaves the list. -/
theorem pairUp_eq (keyValues : List Str) : ∀ didMap : Table Str Str,
    (PairsInBounds keyValues → ∃ filled, pairUp keyValues didMap = .ok filled) ∧
      (¬ PairsInBounds keyValues → pairUp keyValues didMap = .error .undefined) := by
  induction keyValues using List.twoStepInduction with
  | nil => exact fun didMap ↦ ⟨fun _ ↦ ⟨didMap, rfl⟩, fun h ↦ absurd (by simp [PairsInBounds]) h⟩
  | singleton key => exact fun didMap ↦ ⟨fun h ↦ by simpa using h 0, fun _ ↦ rfl⟩
  | cons_cons key value keyValues ih =>
    intro didMap
    have hlength : PairsInBounds (key :: value :: keyValues) ↔ PairsInBounds keyValues := by
      rw [pairsInBounds_iff, pairsInBounds_iff, List.length_cons, List.length_cons]
      omega
    rw [hlength]
    exact ih _

/-! ### Counting words -/

/-- How many separators a text has. -/
def separators (record : Str) : ℕ := record.count ':' + record.count ','

/-- Whether a word is open at the end of a text: its last character that is not erased does not
separate. -/
def endsInWord (record : Str) : Bool :=
  match (record.filter fun c ↦ c ∉ [' ', '}', '{', '"']).getLast? with
  | none => false
  | some c => c ≠ ':' && c ≠ ','

/-- The words of a text come in pairs. -/
def InStep (record : Str) : Prop := separators record % 2 = if endsInWord record then 1 else 0

instance (record : Str) : Decidable (InStep record) := inferInstanceAs (Decidable (_ = _))

/-- The text that is split: the characters that are not erased, the separators as blanks. -/
theorem separated_eq (record : Str) : separated record =
    (record.filter fun c ↦ c ∉ [' ', '}', '{', '"']).map fun c ↦
      if c = ':' ∨ c = ',' then ' ' else c := by
  have hkept : (fun c : Char ↦ !(c == ' ' || c == '}' || c == '{' || c == '"')) =
      fun c ↦ decide (c ∉ [' ', '}', '{', '"']) := by
    funext c
    simp [Bool.or_assoc, not_or, beq_eq_decide]
  rw [separated, hkept, List.map_map]
  refine List.map_congr_left fun c _ ↦ ?_
  by_cases hcolon : c = ':'
  · subst hcolon
    rfl
  · simp [hcolon]

/-- Every separator becomes a blank, and there is no other. -/
theorem count_separated (record : Str) : (separated record).count ' ' = separators record := by
  have hblank : ∀ c ∈ [' ', '}', '{', '"'], c ≠ ':' ∧ c ≠ ',' := by decide
  induction record with
  | nil => rfl
  | cons c record ih =>
    by_cases herased : c ∈ [' ', '}', '{', '"']
    · obtain ⟨hcolon, hcomma⟩ := hblank c herased
      rw [separated_cons_erased herased, ih, separators, separators,
        List.count_cons_of_ne hcolon, List.count_cons_of_ne hcomma]
    · have hne : c ≠ ' ' := fun h ↦ herased (by simp [h])
      rw [separated_eq, List.filter_cons_of_pos (by simpa using herased), List.map_cons,
        ← separated_eq]
      by_cases hsep : c = ':' ∨ c = ','
      · rw [if_pos hsep, List.count_cons_self, ih, separators, separators]
        rcases hsep with rfl | rfl <;>
          rw [List.count_cons_self, List.count_cons_of_ne (by decide)] <;> omega
      · obtain ⟨hcolon, hcomma⟩ := not_or.1 hsep
        rw [if_neg hsep, List.count_cons_of_ne hne, ih, separators, separators,
          List.count_cons_of_ne hcolon, List.count_cons_of_ne hcomma]

/-- A word is open at the end exactly if the text that is split ends in one. -/
theorem endsInWord_iff (record : Str) :
    (separated record = [] ∨ (separated record).getLast? = some ' ') ↔
      endsInWord record = false := by
  rw [separated_eq, endsInWord]
  have hblank : ' ' ∉ record.filter fun c ↦ c ∉ [' ', '}', '{', '"'] := by simp
  generalize (record.filter fun c ↦ c ∉ [' ', '}', '{', '"']) = kept at hblank ⊢
  rcases kept.eq_nil_or_concat with rfl | ⟨l, c, rfl⟩
  · simp
  · have hc : c ≠ ' ' := fun h ↦ hblank (by simp [h])
    by_cases hcolon : c = ':' <;> by_cases hcomma : c = ',' <;> simp [hcolon, hcomma, hc]

/-- **The words of a text come in pairs** exactly if its separators fit its end. -/
theorem length_didWords_iff (record : Str) :
    (didWords record).length % 2 = 0 ↔ InStep record := by
  have hends := endsInWord_iff record
  rw [didWords, Text.length_getlines, count_separated, InStep]
  rcases hword : endsInWord record with - | -
  · rw [if_pos (hends.2 hword)]
    simp
  · rw [if_neg fun h ↦ absurd (hends.1 h) (by simp [hword])]
    simp only [if_true]
    omega

/-- The loop stays in the words of a text exactly if the text is in step. -/
theorem pairsInBounds_didWords_iff (record : Str) :
    PairsInBounds (didWords record) ↔ InStep record :=
  (pairsInBounds_iff _).trans (length_didWords_iff record)

/-- A record of the DID grammar is in step. -/
theorem inStep_text (r : DidRecord) : InStep r.text := by
  have hlength : ∀ fields : List DidField, (fieldWords fields).length = 2 * fields.length := by
    intro fields
    induction fields with
    | nil => rfl
    | cons f fields ih =>
      rw [fieldWords, List.flatMap_cons, List.length_append, ← fieldWords, ih, List.length_cons,
        List.length_cons, List.length_cons, List.length_nil]
      omega
  rw [← length_didWords_iff, didWords_text, hlength]
  omega

/-! ### Bodies -/

/-- The strings `split_dids` puts together from the chunks of a body. -/
def emitted (remainder : Str) (chunks : List Str) : List Str := (splitDidsAll remainder chunks []).2

/-- **The record parser stays in bounds exactly on texts in step.** Whatever the body and its
chunks, and whatever remainder the parser starts with: for every string that is put together from
the lines of the body, every index the pairing loop uses lies in its list exactly if the string has
an odd number of colons and commas where a word stands at its end, and an even number elsewhere. -/
theorem record_parser_in_bounds_iff (remainder : Str) (chunks : List Str) :
    (∀ record ∈ emitted remainder chunks, PairsInBounds (didWords record)) ↔
      ∀ record ∈ emitted remainder chunks, InStep record :=
  forall₂_congr fun record _ ↦ pairsInBounds_didWords_iff record

/-- What Rucio answers for a DID it does not have, with a colon in the message. -/
def notFoundBody : Str :=
  "\x7b\"ExceptionClass\": \"DataIdentifierNotFound\", ".toList ++
    "\"ExceptionMessage\": \"Data identifier 's:f' not found.\"\x7d".toList

/-- On that answer the last index leaves the list. -/
theorem not_pairsInBounds_notFoundBody :
    ¬ ∀ record ∈ emitted [] [notFoundBody], PairsInBounds (didWords record) := by
  simp only [pairsInBounds_didWords_iff]
  decide +kernel

/-- **A body is parsed to its end exactly if every index stays in bounds**; else the first access
behind the list is undefined. -/
theorem structurizeAll_returns_iff (k : Structurizer) (remainder : Str) (chunks : List Str)
    (target : List RucioDid) :
    (∃ parsed, structurizeAll k.run remainder chunks target = .ok parsed) ↔
      ∀ record ∈ emitted remainder chunks, PairsInBounds (didWords record) := by
  have hfill : ∀ (records : List Str) (target : List RucioDid),
      (∃ dids, fillDids mapDid k.fill records target = .ok dids) ↔
        ∀ record ∈ records, PairsInBounds (didWords record) := by
    intro records
    induction records with
    | nil => exact fun target ↦ ⟨fun _ ↦ by simp, fun _ ↦ ⟨target, rfl⟩⟩
    | cons record records ih =>
      intro target
      obtain ⟨hok, herror⟩ := pairUp_eq (didWords record) Table.empty
      rw [List.forall_mem_cons, fillDids, mapDid_eq]
      by_cases hbounds : PairsInBounds (didWords record)
      · obtain ⟨filled, hfilled⟩ := hok hbounds
        rw [hfilled, and_iff_right hbounds]
        exact ih _
      · rw [herror hbounds]
        exact iff_of_false (fun h ↦ by obtain ⟨dids, h⟩ := h; cases h) fun h ↦ hbounds h.1
  rw [k.run_eq, structurizeAll_eq, emitted, ← hfill _ target]
  constructor
  · rintro ⟨parsed, hparsed⟩
    obtain ⟨dids, hdids, -⟩ := bind_eq_ok.1 hparsed
    exact ⟨dids, hdids⟩
  · rintro ⟨dids, hdids⟩
    exact ⟨_, by rw [hdids]; rfl⟩

end FusePosix
