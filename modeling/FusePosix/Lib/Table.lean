import Mathlib.Tactic.Common

/-!
# Tables

A finite key-value container whose iteration order nobody looks at, as the partial function it
stores. Two tables with the same entries are equal, so frame statements are equations.
-/

/-- A table from keys to values. -/
def Table (κ ν : Type*) := κ → Option ν

namespace Table

variable {κ ν : Type*} [DecidableEq κ]

/-- The table without entries. -/
def empty : Table κ ν := fun _ ↦ none

omit [DecidableEq κ] in
/-- The entry of a key. -/
def find (t : Table κ ν) (k : κ) : Option ν := t k

omit [DecidableEq κ] in
/-- Whether a key has an entry. -/
def contains (t : Table κ ν) (k : κ) : Bool := (t.find k).isSome

/-- Store a value, whatever was stored before. -/
def insert (t : Table κ ν) (k : κ) (v : ν) : Table κ ν := fun l ↦ if l = k then some v else t l

/-- Store a value unless the key has one. -/
def emplace (t : Table κ ν) (k : κ) (v : ν) : Table κ ν :=
  if t.contains k then t else t.insert k v

/-- Drop the entry of a key. -/
def erase (t : Table κ ν) (k : κ) : Table κ ν := fun l ↦ if l = k then none else t l

@[simp] theorem find_insert_self (t : Table κ ν) (k : κ) (v : ν) : (t.insert k v).find k = some v :=
  if_pos rfl

theorem find_insert (t : Table κ ν) (k l : κ) (v : ν) :
    (t.insert k v).find l = if l = k then some v else t.find l :=
  rfl

/-- What is read from an entry after an insertion. -/
theorem map_find_insert {μ : Type*} (f : ν → μ) (t : Table κ ν) (k l : κ) (v : ν) :
    ((t.insert k v).find l).map f = if l = k then some (f v) else (t.find l).map f := by
  rw [find_insert, apply_ite (Option.map f), Option.map_some]

omit [DecidableEq κ] in
@[simp] theorem contains_empty (k : κ) : (empty : Table κ ν).contains k = false := rfl

omit [DecidableEq κ] in
theorem contains_eq_true {t : Table κ ν} {k : κ} :
    t.contains k = true ↔ ∃ v, t.find k = some v := by
  rw [contains, Option.isSome_iff_exists]

omit [DecidableEq κ] in
theorem contains_eq_false {t : Table κ ν} {k : κ} : t.contains k = false ↔ t.find k = none := by
  rw [contains, Option.isSome_eq_false_iff, Option.isNone_iff_eq_none]

@[simp] theorem contains_insert (t : Table κ ν) (k l : κ) (v : ν) :
    (t.insert k v).contains l = (decide (l = k) || t.contains l) := by
  rw [contains, find_insert, contains]
  by_cases h : l = k <;> simp [h]

/-- After `emplace` a key has an entry exactly if it is the new key or had one before. -/
@[simp] theorem contains_emplace (t : Table κ ν) (k l : κ) (v : ν) :
    (t.emplace k v).contains l = (decide (l = k) || t.contains l) := by
  rw [emplace]
  by_cases hk : t.contains k = true
  · rcases eq_or_ne l k with rfl | h
    · simp [hk]
    · simp [hk, h]
  · rw [if_neg hk, contains_insert]

end Table
