import FusePosix.Utils.DidChunks
import Mathlib.Data.List.Nodup
import Mathlib.Data.List.TakeWhile

/-!
# Records of the DID grammar

The record parser erases blanks, braces and quotes everywhere and lets every colon and every comma
separate. It knows nothing of JSON: that it reads a record right is owed to the grammar of DIDs,
whose keys and values contain none of these characters.

* A `DidRecord` is a record of that grammar, with the blanks it was printed with; `DidRecord.text`
  prints it.
* `separated` is what the parser splits into words. On a record the words are its keys and values,
  one after the other (`didWords_text`), so pairing them by position finds every value under its key
  (`mapDid_text`).
* `record_round_trip` is what both structurizers make of a record.
-/

namespace FusePosix

open Reassembly

/-! ### Words -/

/-- The characters with a meaning in a body of records. -/
def didSpecials : Str := [' ', '{', '}', '"', ':', ',', '\n']

/-- A key or a value of the DID grammar. -/
structure DidWord where
  text : Str
  ne_nil : text ≠ []
  plain : ∀ c ∈ text, c ∉ didSpecials
  deriving DecidableEq

namespace DidWord

variable (w : DidWord)

theorem ne_of_mem {c : Char} (hc : c ∈ w.text) : c ≠ ' ' ∧ c ≠ '{' ∧ c ≠ '}' ∧ c ≠ '"' ∧ c ≠ ':' ∧
    c ≠ ',' ∧ c ≠ '\n' := by
  simpa [didSpecials, not_or] using w.plain c hc

theorem notMem {c : Char} (hc : c ∈ didSpecials) : c ∉ w.text := fun h ↦ w.plain c h hc

end DidWord

/-! ### Fields and records -/

/-- A field of a record, with the blanks around it. -/
structure DidField where
  key : DidWord
  value : DidWord
  /-- Whether the value is a string; else it is a bare literal. -/
  quoted : Bool
  front : ℕ := 0
  beforeColon : ℕ := 0
  afterColon : ℕ := 0
  back : ℕ := 0
  deriving DecidableEq

/-- Blanks. -/
def blanks (n : ℕ) : Str := List.replicate n ' '

/-- A text in quotes. -/
def inQuotes (w : Str) : Str := '"' :: (w ++ ['"'])

namespace DidField

variable (f : DidField)

/-- The part in front of the colon. -/
def keyText : Str := blanks f.front ++ inQuotes f.key.text ++ blanks f.beforeColon

/-- The value as it is printed. -/
def literal : Str := if f.quoted then inQuotes f.value.text else f.value.text

/-- The part behind the colon. -/
def valueText : Str := blanks f.afterColon ++ f.literal ++ blanks f.back

/-- The field as it is printed. -/
def text : Str := f.keyText ++ ':' :: f.valueText

end DidField

/-- A record: no key comes twice. -/
structure DidRecord where
  fields : List DidField
  keys_nodup : (fields.map fun f ↦ f.key.text).Nodup

namespace DidRecord

/-- The record as it is printed. -/
def text (r : DidRecord) : Str := '{' :: ([','].intercalate (r.fields.map DidField.text) ++ ['}'])

/-- The value of a key, if the record has it. -/
def value? (r : DidRecord) (key : Str) : Option Str :=
  (r.fields.find? fun f ↦ f.key.text == key).map fun f ↦ f.value.text

variable {r : DidRecord} {f g : DidField}

/-- A field is known by its key. -/
theorem eq_of_key (hf : f ∈ r.fields) (hg : g ∈ r.fields) (h : f.key.text = g.key.text) : f = g :=
  List.inj_on_of_nodup_map r.keys_nodup hf hg h

theorem value?_of_mem (hf : f ∈ r.fields) : r.value? f.key.text = some f.value.text := by
  rw [value?]
  rcases hfind : r.fields.find? fun g ↦ g.key.text == f.key.text with - | g
  · exact absurd (beq_self_eq_true _) (List.find?_eq_none.1 hfind f hf)
  · have hkey := List.find?_some hfind
    rw [hfind, Option.map_some, eq_of_key (List.mem_of_find?_eq_some hfind) hf (beq_iff_eq.1 hkey)]

/-- A field has one place. -/
theorem eq_of_place {before after before' after' : List DidField}
    (h : r.fields = before ++ f :: after) (h' : r.fields = before' ++ f :: after') :
    before = before' ∧ after = after' := by
  have hnodup : f ∉ before ++ after := by
    have hfields := List.Nodup.of_map _ r.keys_nodup
    rw [h, List.nodup_middle] at hfields
    exact (List.nodup_cons.1 hfields).1
  obtain ⟨hbefore, hafter⟩ := not_or.1 (mt List.mem_append.2 hnodup)
  obtain ⟨rfl, -, rfl⟩ := (List.append_cons_inj_of_notMem hbefore hafter).1 (h.symm.trans h')
  exact ⟨rfl, rfl⟩

end DidRecord

/-! ### What the parser splits -/

/-- The text `map_did` splits at blanks. -/
def separated (sdid : Str) : Str :=
  ((sdid.filter fun c ↦ !(c == ' ' || c == '}' || c == '{' || c == '"')).map fun c ↦
    if c = ':' then ' ' else c).map fun c ↦ if c = ',' then ' ' else c

/-- The list `key_values`. -/
def didWords (sdid : Str) : List Str := Text.getlines ' ' (separated sdid)

theorem mapDid_eq (sdid : Str) : mapDid sdid = pairUp (didWords sdid) Table.empty := rfl

@[simp] theorem separated_nil : separated [] = [] := rfl

@[simp] theorem separated_append (a b : Str) : separated (a ++ b) = separated a ++ separated b := by
  simp [separated]

/-- A blank, a brace or a quote is erased. -/
theorem separated_cons_erased {c : Char} (hc : c ∈ [' ', '}', '{', '"']) (l : Str) :
    separated (c :: l) = separated l := by
  have herased : (!(c == ' ' || c == '}' || c == '{' || c == '"')) = false := by
    simp only [List.mem_cons, List.not_mem_nil, or_false] at hc
    rcases hc with rfl | rfl | rfl | rfl <;> rfl
  rw [separated, List.filter_cons_of_neg (by simp [herased]), separated]

/-- A colon or a comma becomes a blank. -/
theorem separated_cons_separator {c : Char} (hc : c = ':' ∨ c = ',') (l : Str) :
    separated (c :: l) = ' ' :: separated l := by
  rcases hc with rfl | rfl <;> rfl

@[simp] theorem separated_blanks (n : ℕ) : separated (blanks n) = [] := by
  induction n with
  | zero => rfl
  | succ n ih => rw [blanks, List.replicate_succ, separated_cons_erased (by decide), ← blanks, ih]

/-- A word stays as it is. -/
@[simp] theorem separated_word (w : DidWord) : separated w.text = w.text := by
  have hfilter : (w.text.filter fun c ↦ !(c == ' ' || c == '}' || c == '{' || c == '"')) =
      w.text := by
    refine List.filter_eq_self.2 fun c hc ↦ ?_
    obtain ⟨h₁, h₂, h₃, h₄, -⟩ := w.ne_of_mem hc
    simp [h₁, h₂, h₃, h₄]
  have hcolon : (w.text.map fun c ↦ if c = ':' then ' ' else c) = w.text :=
    (List.map_congr_left fun c hc ↦ if_neg (w.ne_of_mem hc).2.2.2.2.1).trans (List.map_id _)
  have hcomma : (w.text.map fun c ↦ if c = ',' then ' ' else c) = w.text :=
    (List.map_congr_left fun c hc ↦ if_neg (w.ne_of_mem hc).2.2.2.2.2.1).trans (List.map_id _)
  rw [separated, hfilter, hcolon, hcomma]

/-- The quotes around a word go. -/
@[simp] theorem separated_inQuotes (w : DidWord) : separated (inQuotes w.text) = w.text := by
  rw [inQuotes, separated_cons_erased (by decide), separated_append, separated_word,
    separated_cons_erased (by decide), separated_nil, List.append_nil]

theorem separated_field (f : DidField) :
    separated f.text = f.key.text ++ ' ' :: f.value.text := by
  have hliteral : separated f.literal = f.value.text := by
    rw [DidField.literal]
    split_ifs <;> simp
  rw [DidField.text, separated_append, separated_cons_separator (Or.inl rfl), DidField.keyText,
    DidField.valueText]
  simp [hliteral]

/-- The keys and values of fields, one after the other. -/
def fieldWords (fields : List DidField) : List Str :=
  fields.flatMap fun f ↦ [f.key.text, f.value.text]

theorem separated_fields (fields : List DidField) :
    separated ([','].intercalate (fields.map DidField.text)) =
      [' '].intercalate (fieldWords fields) := by
  induction fields with
  | nil => rfl
  | cons f fields ih =>
    rcases fields with - | ⟨g, fields⟩
    · simp [separated_field, fieldWords, List.intercalate_cons_cons]
    · have hwords : fieldWords (f :: g :: fields) =
          f.key.text :: f.value.text :: fieldWords (g :: fields) := rfl
      have hne : ∃ v vs, fieldWords (g :: fields) = v :: vs := ⟨_, _, rfl⟩
      obtain ⟨v, vs, hvs⟩ := hne
      rw [List.map_cons, List.map_cons, List.intercalate_cons_cons, separated_append,
        separated_append, separated_field, ← List.map_cons, ih, hwords, hvs,
        List.intercalate_cons_cons, List.intercalate_cons_cons,
        separated_cons_separator (Or.inr rfl)]
      simp

/-- **The words of a record are its keys and values**, in order. -/
theorem didWords_text (r : DidRecord) : didWords r.text = fieldWords r.fields := by
  have hseparated : separated r.text = [' '].intercalate (fieldWords r.fields) := by
    rw [DidRecord.text, separated_cons_erased (by decide), separated_append, separated_fields,
      separated_cons_erased (by decide), separated_nil, List.append_nil]
  have hword : ∀ w ∈ fieldWords r.fields, ∃ v : DidWord, v.text = w := by
    intro w hw
    obtain ⟨f, -, hf⟩ := List.mem_flatMap.1 hw
    rcases List.mem_pair.1 hf with rfl | rfl
    exacts [⟨f.key, rfl⟩, ⟨f.value, rfl⟩]
  rw [didWords, hseparated]
  refine Text.getlines_intercalate (fun w hw ↦ ?_) fun w hw ↦ ?_
  · obtain ⟨v, rfl⟩ := hword w hw
    exact v.ne_nil
  · obtain ⟨v, rfl⟩ := hword w hw
    exact v.notMem (by decide)

/-! ### Pairing by position -/

/-- The values of fields, stored under their keys. -/
def storeFields (fields : List DidField) (didMap : Table Str Str) : Table Str Str :=
  fields.foldl (fun didMap f ↦ didMap.insert f.key.text f.value.text) didMap

theorem pairUp_fieldWords (fields : List DidField) : ∀ didMap : Table Str Str,
    pairUp (fieldWords fields) didMap = .ok (storeFields fields didMap) := by
  induction fields with
  | nil => exact fun didMap ↦ rfl
  | cons f fields ih => exact fun didMap ↦ ih _

/-- A key that comes once is found with its value, whatever was stored before. -/
theorem find_storeFields {fields : List DidField} (key : Str) : ∀ didMap : Table Str Str,
    (fields.map fun f ↦ f.key.text).Nodup → (storeFields fields didMap).find key =
      (((fields.find? fun f ↦ f.key.text == key).map fun f ↦ f.value.text).or
        (didMap.find key)) := by
  induction fields with
  | nil => exact fun didMap _ ↦ rfl
  | cons f fields ih =>
    intro didMap hnodup
    obtain ⟨hnew, hrest⟩ := List.nodup_cons.1 hnodup
    have hstep : (storeFields (f :: fields) didMap).find key =
        (((fields.find? fun f ↦ f.key.text == key).map fun f ↦ f.value.text).or
          ((didMap.insert f.key.text f.value.text).find key)) := ih _ hrest
    rw [hstep, Table.find_insert, List.find?_cons]
    by_cases hkey : f.key.text = key
    · have hnone : (fields.find? fun g ↦ g.key.text == key) = none := by
        refine List.find?_eq_none.2 fun g hg hgkey ↦ hnew (List.mem_map.2 ⟨g, hg, ?_⟩)
        exact (beq_iff_eq.1 hgkey).trans hkey.symm
      simp [hnone, hkey]
    · rw [if_neg (Ne.symm hkey), beq_eq_false_iff_ne.2 hkey]

/-- **The parser finds every value under its key**, and nothing under any other key. -/
theorem mapDid_text (r : DidRecord) :
    ∃ didMap, mapDid r.text = .ok didMap ∧ ∀ key, didMap.find key = r.value? key := by
  refine ⟨_, by rw [mapDid_eq, didWords_text, pairUp_fieldWords], fun key ↦ ?_⟩
  rw [find_storeFields key _ r.keys_nodup, DidRecord.value?]
  exact Option.or_none

/-! ### Numbers -/

/-- A digit is no blank. -/
theorem isSpaceChar_of_isDigit {c : Char} (h : c.isDigit = true) : isSpaceChar c = false := by
  obtain ⟨hlow, -⟩ := Char.isDigit_iff_toNat.1 h
  have hzero : '0'.toNat = 48 := rfl
  have hblank : c ≠ ' ' := by
    rintro rfl
    exact absurd hlow (by decide)
  have hreturn : '\r'.toNat = 13 := rfl
  have hbehind : ¬ c.toNat ≤ '\r'.toNat := by omega
  rw [isSpaceChar, beq_eq_false_iff_ne.2 hblank, decide_eq_false hbehind, Bool.and_false,
    Bool.false_or]

/-- A digit is no sign. -/
theorem ne_sign_of_isDigit {c : Char} (h : c.isDigit = true) : c ≠ '-' ∧ c ≠ '+' := by
  constructor <;> (rintro rfl; exact absurd h (by decide))

theorem digitsValue_toDigits (n : ℕ) : digitsValue (Nat.toDigits 10 n) = n :=
  Nat.ofDigitChars_ten_toDigits

theorem isDigit_of_mem_toDigits {n : ℕ} {c : Char} (h : c ∈ Nat.toDigits 10 n) :
    c.isDigit = true :=
  Nat.isDigit_of_mem_toDigits (by decide) (by decide) h

/-- `atoi` of a text that begins with a digit reads digits as long as there are any. -/
theorem atoi_of_isDigit {c : Char} (hc : c.isDigit = true) (w : Str) :
    atoi (c :: w) =
      (min (digitsValue ((c :: w).takeWhile Char.isDigit) : ℤ) (2 ^ 63 - 1)).bmod (2 ^ 32) := by
  obtain ⟨hminus, hplus⟩ := ne_sign_of_isDigit hc
  rw [atoi, List.dropWhile_cons_of_neg (by simp [isSpaceChar_of_isDigit hc])]
  split
  rename_i hsign
  split at hsign
  · rename_i heq
    exact absurd (List.cons.inj heq).1 hminus
  · rename_i heq
    exact absurd (List.cons.inj heq).1 hplus
  · obtain ⟨rfl, rfl⟩ := Prod.mk.inj hsign
    simp only [Bool.false_eq_true, if_false]

/-- `atoi` of a decimal: the number, cut down to 32 bits. -/
theorem atoi_toDigits {n : ℕ} (hn : n < 2 ^ 63) :
    atoi (Nat.toDigits 10 n) = (n : ℤ).bmod (2 ^ 32) := by
  have hdigits : (Nat.toDigits 10 n).takeWhile Char.isDigit = Nat.toDigits 10 n :=
    List.takeWhile_eq_self_iff.2 fun c hc ↦ isDigit_of_mem_toDigits hc
  obtain ⟨c, w, hcw⟩ := List.exists_cons_of_ne_nil (Nat.toDigits_ne_nil (n := n) (b := 10))
  have hc : c.isDigit = true := isDigit_of_mem_toDigits (hcw ▸ List.mem_cons_self)
  have hfits : (n : ℤ) ≤ 2 ^ 63 - 1 := by omega
  rw [hcw, atoi_of_isDigit hc, ← hcw, hdigits, digitsValue_toDigits, Int.min_eq_left hfits]

/-- Cutting down to 32 bits keeps the numbers below 2 GiB and no others. -/
theorem bmod_eq_self_iff {n : ℕ} : (n : ℤ).bmod (2 ^ 32) = n ↔ n < 2 ^ 31 := by
  rw [Int.bmod_def]
  split_ifs with h <;> omega

/-! ### Records in a body -/

/-- What a printed field is made of. -/
theorem mem_fieldText {f : DidField} {c : Char} (h : c ∈ f.text) :
    c ∈ f.key.text ∨ c ∈ f.value.text ∨ c = ' ' ∨ c = '"' ∨ c = ':' := by
  have hblanks : ∀ n, c ∈ blanks n → c = ' ' := fun n ↦ List.eq_of_mem_replicate
  have hquotes : ∀ w : Str, c ∈ inQuotes w → c ∈ w ∨ c = '"' := fun w hw ↦ by
    simpa [inQuotes, or_comm, or_left_comm] using hw
  rw [DidField.text, List.mem_append, List.mem_cons, DidField.keyText, DidField.valueText,
    DidField.literal] at h
  simp only [List.mem_append] at h
  rcases h with ((h | h) | h) | h | (h | h) | h
  · exact Or.inr (Or.inr (Or.inl (hblanks _ h)))
  · rcases hquotes _ h with h | h
    · exact Or.inl h
    · exact Or.inr (Or.inr (Or.inr (Or.inl h)))
  · exact Or.inr (Or.inr (Or.inl (hblanks _ h)))
  · exact Or.inr (Or.inr (Or.inr (Or.inr h)))
  · exact Or.inr (Or.inr (Or.inl (hblanks _ h)))
  · split_ifs at h
    · rcases hquotes _ h with h | h
      · exact Or.inr (Or.inl h)
      · exact Or.inr (Or.inr (Or.inr (Or.inl h)))
    · exact Or.inr (Or.inl h)
  · exact Or.inr (Or.inr (Or.inl (hblanks _ h)))

/-- No mark of the stream and no comma stands in a field. -/
theorem notMem_fieldText {f : DidField} {c : Char} (hc : c ∈ ['{', '}', '\n', ',']) :
    c ∉ f.text := by
  intro h
  have hspecials : ∀ d ∈ ['{', '}', '\n', ','], d ∈ didSpecials := by decide
  have hspecial := hspecials c hc
  rcases mem_fieldText h with h | h | rfl | rfl | rfl
  · exact f.key.notMem hspecial h
  · exact f.value.notMem hspecial h
  all_goals exact absurd hc (by decide)

/-- A printed record is flat. -/
theorem flat_text (r : DidRecord) : Flat didMarks r.text := by
  have hfields : ∀ (fields : List DidField) (c : Char), c ∈ ['{', '}', '\n'] →
      c ∉ [','].intercalate (fields.map DidField.text) := by
    intro fields c hc
    have hne : c ≠ ',' := by
      rintro rfl
      exact absurd hc (by decide)
    have hc' : c ∈ ['{', '}', '\n', ','] := List.mem_append_left [','] hc
    induction fields with
    | nil => exact List.not_mem_nil
    | cons f fields ih =>
      rcases fields with - | ⟨g, fields⟩
      · simpa using notMem_fieldText hc'
      · rw [List.map_cons, List.map_cons, List.intercalate_cons_cons, List.mem_append,
          List.mem_append, List.mem_singleton]
        rintro ((h | h) | h)
        exacts [notMem_fieldText hc' h, hne h, ih h]
  exact ⟨_, ⟨hfields _ _ (by decide), hfields _ _ (by decide), hfields _ _ (by decide)⟩, rfl⟩

/-- **A body of one record, cut anywhere**, is read as the fields of that record. -/
theorem structurizeAll_record (r : DidRecord) (final : Bool) {chunks : List Str}
    (hchunks : chunks.flatten = joined didMarks [r.text] final) :
    ∃ didMap, (∀ key, didMap.find key = r.value? key) ∧
      ∀ (fill : Table Str Str → RucioDid) (target : List RucioDid),
        structurizeAll (structurizeWith mapDid fill) [] chunks target =
          .ok ([], target ++ [fill didMap]) := by
  obtain ⟨didMap, hmap, hfind⟩ := mapDid_text r
  refine ⟨didMap, hfind, fun fill target ↦ ?_⟩
  have hflat : ∀ s ∈ [r.text], Flat didMarks s := fun s hs ↦ List.mem_singleton.1 hs ▸ flat_text r
  rw [structurizeAll_joined hflat final hchunks, fillDids, hmap]
  rfl

/-- A single call on a record. -/
theorem structurizeWith_record (r : DidRecord) :
    ∃ didMap, (∀ key, didMap.find key = r.value? key) ∧
      ∀ (fill : Table Str Str → RucioDid) (target : List RucioDid),
        structurizeWith mapDid fill [] r.text target = .ok ([], target ++ [fill didMap]) := by
  have hchunks : [r.text].flatten = joined didMarks [r.text] false := by simp [joined]
  obtain ⟨didMap, hfind, hall⟩ := structurizeAll_record r false hchunks
  refine ⟨didMap, hfind, fun fill target ↦ ?_⟩
  have hone := hall fill target
  rw [structurizeAll] at hone
  obtain ⟨parsed, hparsed, hrest⟩ := bind_eq_ok.1 hone
  rw [hparsed]
  exact hrest

/-! ### Types and numbers -/

/-- How a type is written in a record. -/
def RucioDataType.word : RucioDataType → Str
  | rucioFile => "FILE".toList
  | rucioContainer => "CONTAINER".toList
  | rucioDataset => "DATASET".toList

/-- A record says a number: it has no such field, or a null, or a decimal that fits an `int`. -/
inductive DidRecord.Number (r : DidRecord) (key : Str) : ℕ → Prop where
  | missing (h : r.value? key = none) : r.Number key 0
  | null (h : r.value? key = some "null".toList) : r.Number key 0
  | decimal {n : ℕ} (hn : n < 2 ^ 31) (h : r.value? key = some (Nat.toDigits 10 n)) :
    r.Number key n

section Fields

variable {r : DidRecord} {didMap : Table Str Str} {key : Str} {n : ℕ}

/-- A type the parser knows is the type of the DID. -/
theorem typeAndSize_fst {type : RucioDataType} (h : field didMap "type".toList = type.word) :
    (typeAndSize didMap).1 = some type := by
  rw [typeAndSize, h]
  cases type with
  | rucioFile => rw [if_pos (by decide)]
  | rucioContainer => rw [if_neg (by decide), if_pos (by decide)]
  | rucioDataset => rw [if_neg (by decide), if_neg (by decide), if_pos (by decide)]

theorem typeAndSize_snd (h : field didMap "type".toList = RucioDataType.rucioFile.word) :
    (typeAndSize didMap).2 = some (if field didMap "bytes".toList = "null".toList then 0
      else atoi (field didMap "bytes".toList)) := by
  have hfile : field didMap "type".toList = "FILE".toList := h
  rw [typeAndSize, if_pos hfile]

/-- A null is no decimal. -/
theorem toDigits_ne_null (n : ℕ) : Nat.toDigits 10 n ≠ "null".toList := by
  intro h
  have hmem : 'n' ∈ Nat.toDigits 10 n := by
    rw [h]
    decide
  exact absurd (isDigit_of_mem_toDigits hmem) (by decide)

/-- Whatever says a number is read as that number. -/
theorem atoi_field (hfind : ∀ key, didMap.find key = r.value? key) (h : r.Number key n) :
    atoi (field didMap key) = n := by
  rw [field, hfind]
  cases h with
  | missing h => rw [h]; decide
  | null h => rw [h]; decide
  | decimal hn h => rw [h, Option.getD_some, atoi_toDigits (by omega), bmod_eq_self_iff.2 hn]

/-- The size of a file is the number its record says. -/
theorem typeAndSize_snd_number (hfind : ∀ key, didMap.find key = r.value? key)
    (htype : field didMap "type".toList = RucioDataType.rucioFile.word)
    (h : r.Number "bytes".toList n) : (typeAndSize didMap).2 = some (n : ℤ) := by
  have hread := atoi_field hfind h
  rw [typeAndSize_snd htype]
  split_ifs with hnull
  · rw [← hread, hnull]
    rfl
  · rw [hread]

end Fields

/-! ### The round trip -/

/-- **Record round trip.** A record of the DID grammar with a scope, a name and a type, whatever
other fields it has, in whatever order and with whatever blanks, is read as one DID with these
values. The two structurizers agree on it, up to the parent and the level, which the second one does
not read. -/
theorem record_round_trip (r : DidRecord) {scope name : Str} {type : RucioDataType}
    {level bytes : ℕ}
    (hscope : r.value? "scope".toList = some scope) (hname : r.value? "name".toList = some name)
    (htype : r.value? "type".toList = some type.word) (hlevel : r.Number "level".toList level)
    (hbytes : r.Number "bytes".toList bytes) (target : List RucioDid) :
    ∃ did containerDid,
      structurizeDid [] r.text target = .ok ([], target ++ [did]) ∧
      did.scope = scope ∧ did.name = name ∧
      did.parent = (r.value? "parent".toList).getD [] ∧ did.type = some type ∧
      did.level = (level : ℤ) ∧ (type = .rucioFile → did.size = some (bytes : ℤ)) ∧
      structurizeContainerDid [] r.text target = .ok ([], target ++ [containerDid]) ∧
      containerDid.scope = did.scope ∧ containerDid.type = did.type ∧
      containerDid.name = did.name ∧
      (type = .rucioFile → containerDid.size = did.size) := by
  obtain ⟨didMap, hfind, hread⟩ := structurizeWith_record r
  have hfield : ∀ key, field didMap key = (r.value? key).getD [] := fun key ↦ by
    rw [field, hfind]
  have htypeField : field didMap "type".toList = type.word := by
    rw [hfield, htype, Option.getD_some]
  refine ⟨didOfMap didMap, containerDidOfMap didMap, hread didOfMap target, ?_, ?_, hfield _,
    typeAndSize_fst htypeField, atoi_field hfind hlevel, ?_, hread containerDidOfMap target,
    rfl, rfl, rfl, fun _ ↦ rfl⟩
  · exact (hfield _).trans (by rw [hscope, Option.getD_some])
  · exact (hfield _).trans (by rw [hname, Option.getD_some])
  · rintro rfl
    exact typeAndSize_snd_number hfind htypeField hbytes

/-! Fields of sample records, as Rucio prints them behind a comma. -/

def sampleScope : DidField where
  key := ⟨"scope".toList, by decide, by decide⟩
  value := ⟨['s'], List.cons_ne_nil _ _, by decide⟩
  quoted := true
  front := 1
  afterColon := 1

def sampleName : DidField where
  key := ⟨"name".toList, by decide, by decide⟩
  value := ⟨['f'], List.cons_ne_nil _ _, by decide⟩
  quoted := true
  front := 1
  afterColon := 1

def sampleType : DidField where
  key := ⟨"type".toList, by decide, by decide⟩
  value := ⟨"FILE".toList, by decide, by decide⟩
  quoted := true
  front := 1
  afterColon := 1

def sampleBytes : DidField where
  key := ⟨"bytes".toList, by decide, by decide⟩
  value := ⟨['1', '2'], by decide, by decide⟩
  quoted := false
  front := 1
  afterColon := 1

/-- The record of a file of twelve bytes, as Rucio prints it. -/
def sampleRecord : DidRecord where
  fields := [{ sampleScope with front := 0 }, sampleType, sampleBytes, sampleName]
  keys_nodup := by decide

example : sampleRecord.text =
    "\x7b\"scope\": \"s\", \"type\": \"FILE\", \"bytes\": 12, \"name\": \"f\"\x7d".toList := by
  decide +kernel

/-- The round trip of a file without a level and a parent. -/
theorem record_round_trip_file : ∃ did containerDid,
    structurizeDid [] sampleRecord.text [] = .ok ([], [] ++ [did]) ∧
    did.scope = ['s'] ∧ did.name = ['f'] ∧
    did.parent = (sampleRecord.value? "parent".toList).getD [] ∧ did.type = some .rucioFile ∧
    did.level = ((0 : ℕ) : ℤ) ∧
    (RucioDataType.rucioFile = .rucioFile → did.size = some ((12 : ℕ) : ℤ)) ∧
    structurizeContainerDid [] sampleRecord.text [] = .ok ([], [] ++ [containerDid]) ∧
    containerDid.scope = did.scope ∧ containerDid.type = did.type ∧
    containerDid.name = did.name ∧
    (RucioDataType.rucioFile = .rucioFile → containerDid.size = did.size) :=
  record_round_trip sampleRecord (by decide) (by decide) (by decide) (.missing (by decide))
    (.decimal (by decide) (by decide)) []

end FusePosix
