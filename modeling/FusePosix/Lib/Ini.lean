import FusePosix.Lib.Text
import Mathlib.Data.List.DropRight
import Mathlib.Data.List.Nodup

/-!
# INI files

What a file of sections, keys and values says. A line is empty, a comment, the header of a section,
or an entry, whose key stands before the first `=` and whose value behind it, both without the
blanks around them. An entry belongs to the section whose header was the last before it.
-/

namespace Ini

/-! ### Lines -/

/-- A space or a tab. -/
def isBlank (c : Char) : Bool := c == ' ' || c == '\t'

/-- A text without the blanks at its ends. -/
def trim (s : List Char) : List Char := (s.dropWhile isBlank).rdropWhile isBlank

def isComment (line : List Char) : Bool :=
  match trim line with
  | c :: _ => c == '#' || c == ';'
  | [] => false

/-- The name in the header of a section. -/
def parseHeader (line : List Char) : Option (List Char) :=
  match trim line with
  | '[' :: name => if name.getLast? = some ']' then some name.dropLast else none
  | _ => none

/-- The key and the value of an entry. -/
def parseEntry (line : List Char) : Option (List Char × List Char) :=
  if isComment line || (trim line).head? == some '[' then none
  else match line.idxOf? '=' with
    | some pos => some (trim (line.take pos), trim (line.drop (pos + 1)))
    | none => none

/-! ### Files -/

/-- The lines behind a header, each with the section it stands in. -/
def sectioned : Option (List Char) → List (List Char) → List (Option (List Char) × List Char)
  | _, [] => []
  | name, line :: lines =>
    let name := (parseHeader line).or name
    (name, line) :: sectioned name lines

/-- An entry and its section. -/
structure Entry where
  under : Option (List Char)
  key : List Char
  value : List Char
  deriving DecidableEq, Repr

/-- All entries of a file. -/
def entries (lines : List (List Char)) : List Entry :=
  (sectioned none lines).filterMap fun place ↦
    (parseEntry place.2).map fun entry ↦ ⟨place.1, entry.1, entry.2⟩

/-- The value of a key in a section. -/
def lookup (lines : List (List Char)) (name key : List Char) : Option (List Char) :=
  ((entries lines).find? fun e ↦ e.under = some name ∧ e.key = key).map Entry.value

/-- Every line is of one of the four kinds, and no key occurs twice in a section. -/
structure IsFile (lines : List (List Char)) : Prop where
  kinds : ∀ line ∈ lines, trim line = [] ∨ isComment line = true ∨
    (parseHeader line).isSome = true ∨ (parseEntry line).isSome = true
  nodup : ((entries lines).map fun e ↦ (e.under, e.key)).Nodup

instance (lines : List (List Char)) : Decidable (IsFile lines) :=
  decidable_of_iff (_ ∧ _) ⟨fun h ↦ ⟨h.1, h.2⟩, fun h ↦ ⟨h.kinds, h.nodup⟩⟩

section Files

variable {line key value name s : List Char} {lines : List (List Char)}

theorem map_snd_sectioned : ∀ (name : Option (List Char)) (lines : List (List Char)),
    (sectioned name lines).map Prod.snd = lines
  | _, [] => rfl
  | _, _ :: lines => congrArg (List.cons _) (map_snd_sectioned _ lines)

/-- An entry cuts its line in three. -/
theorem parseEntry_eq_some (h : parseEntry line = some (key, value)) : ∃ before after,
    line = before ++ '=' :: after ∧ '=' ∉ before ∧ key = trim before ∧ value = trim after := by
  rw [parseEntry] at h
  split_ifs at h
  rcases Text.notMem_or_exists_line '=' line with hnone | ⟨before, after, hbefore, rfl⟩
  · rw [List.idxOf?_eq_none_iff.2 hnone] at h
    cases h
  · rw [Text.idxOf?_append_cons hbefore] at h
    obtain ⟨rfl, rfl⟩ := Prod.mk.inj (Option.some.inj h)
    exact ⟨before, after, rfl, hbefore, by rw [List.take_left' rfl],
      by rw [Text.drop_append_cons]⟩

/-- A text that is trimmed loses blanks at both ends, and ends there with something else. -/
theorem trim_cases (s : List Char) : ∃ front back, s = front ++ trim s ++ back ∧
    (∀ c ∈ front, isBlank c = true) ∧ (∀ c ∈ back, isBlank c = true) ∧
    (∀ c ∈ (trim s).head?, isBlank c = false) ∧ ∀ c ∈ (trim s).getLast?, isBlank c = false := by
  have hback : trim s ++ (s.dropWhile isBlank).rtakeWhile isBlank = s.dropWhile isBlank :=
    List.rdropWhile_append_rtakeWhile
  refine ⟨s.takeWhile isBlank, (s.dropWhile isBlank).rtakeWhile isBlank, ?_,
    fun c hc ↦ List.mem_takeWhile_imp hc, fun c hc ↦ List.mem_rtakeWhile_imp hc, fun c hc ↦ ?_,
    fun c hc ↦ ?_⟩
  · rw [List.append_assoc, hback, List.takeWhile_append_dropWhile]
  · obtain ⟨rest, hrest⟩ := List.head?_eq_some_iff.1 hc
    have hfirst := List.head?_dropWhile_not isBlank s
    rwa [← hback, hrest] at hfirst
  · have hne : trim s ≠ [] := by
      rintro hnil
      rw [hnil] at hc
      cases hc
    obtain rfl := Option.some.inj ((List.getLast?_eq_some_getLast hne).symm.trans hc)
    exact Bool.eq_false_iff.2 (List.rdropWhile_last_not isBlank _ hne)

/-- An entry of a file is what is looked up. -/
theorem lookup_of_mem (h : IsFile lines) {place : Option (List Char) × List Char}
    (hplace : place ∈ sectioned none lines) (hname : place.1 = some name)
    (hentry : parseEntry place.2 = some (key, value)) : lookup lines name key = some value := by
  have hmem : (⟨some name, key, value⟩ : Entry) ∈ entries lines :=
    List.mem_filterMap.2 ⟨place, hplace, by rw [hentry, hname]; rfl⟩
  rw [lookup]
  rcases hfind : (entries lines).find? fun e ↦ e.under = some name ∧ e.key = key with - | e
  · have hnone := List.find?_eq_none.1 hfind _ hmem
    simp at hnone
  · have hfound := List.find?_some hfind
    obtain ⟨hname', hkey'⟩ := of_decide_eq_true hfound
    -- there is only one entry with this section and this key
    obtain rfl : e = ⟨some name, key, value⟩ := by
      refine List.inj_on_of_nodup_map h.nodup (List.mem_of_find?_eq_some hfind) hmem ?_
      rw [hname', hkey']
    rw [hfind]
    rfl

end Files

end Ini
