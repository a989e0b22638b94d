import FusePosix.Lib.Text

/-!
# Texts and abnormal ends

The two notions every other module speaks in. A `std::string` is the list of its characters; a
`const char *` argument is the text it points to, its terminator left implicit until a function
reads memory by position.

A C++ function that can leave its caller abnormally returns in `Except Fault`. A fault is either an
exception that the code lets escape or a step the language leaves undefined; both end the callback
that runs into them, so no state is carried past one.
-/

namespace FusePosix

/-- A `std::string`, or the text behind a `const char *`. -/
abbrev Str := List Char

/-- What holds of the characters of a text is decided on the text. -/
instance (priority := 2000) decidableForallMemStr {p : Char → Prop} [DecidablePred p] (s : Str) :
    Decidable (∀ c ∈ s, p c) :=
  List.decidableBAll p s

/-- The same for the first or last character, if there is one. -/
instance (priority := 2000) decidableForallMemChar {p : Char → Prop} [DecidablePred p]
    (o : Option Char) : Decidable (∀ c ∈ o, p c) :=
  Option.decidableForallMem o

/-- How a computation of the program ends other than by returning. -/
inductive Fault where
  /-- `std::out_of_range`, from a position beyond the end of a string. -/
  | outOfRange
  /-- `std::runtime_error` and what derives from it. -/
  | runtimeError
  /-- An exception of the JSON library. -/
  | json
  /-- A step without defined behaviour: a null dereference, a read outside of an object. -/
  | undefined
  /-- A loop that never ends. -/
  | diverges
  deriving DecidableEq, Repr

/-- The value an optional pointer points to; dereferencing a null pointer is undefined. -/
def deref {α : Type*} : Option α → Except Fault α
  | some a => .ok a
  | none => .error .undefined

section Except

universe u

variable {α β : Type u}

@[simp] theorem pure_eq_ok (a : α) : (pure a : Except Fault α) = .ok a := rfl

@[simp] theorem ok_bind (a : α) (f : α → Except Fault β) : (Except.ok a >>= f) = f a := rfl

@[simp] theorem error_bind (e : Fault) (f : α → Except Fault β) :
    (Except.error e >>= f) = .error e := rfl

/-- A sequence returns exactly if its two parts do, one after the other. -/
theorem bind_eq_ok {x : Except Fault α} {f : α → Except Fault β} {b : β} :
    (x >>= f) = .ok b ↔ ∃ a, x = .ok a ∧ f a = .ok b := by
  cases x with
  | error e => simp
  | ok a => simp

theorem map_eq_ok {x : Except Fault α} {f : α → β} {b : β} (h : f <$> x = .ok b) :
    ∃ a, x = .ok a ∧ f a = b := by
  cases x with
  | error e => simp [Functor.map, Except.map] at h
  | ok a => exact ⟨a, rfl, Except.ok.inj h⟩

/-- What a computation returns first, without the state behind it. -/
theorem exists_of_map_fst_eq_ok {x : Except Fault (α × β)} {a : α}
    (h : x.map Prod.fst = .ok a) : ∃ b, x = .ok (a, b) := by
  rcases x with e | ⟨a', b⟩
  · simp [Except.map] at h
  · obtain rfl : a' = a := Except.ok.inj h
    exact ⟨b, rfl⟩

/-- A step that is enabled exactly if a computation returns. -/
theorem toOption_eq_some {x : Except Fault α} {a : α} (h : x.toOption = some a) : x = .ok a := by
  cases x with
  | error e => cases h
  | ok a' => rw [Option.some.inj h]

theorem map_toOption_eq_some {x : Except Fault α} {f : α → β} {b : β}
    (h : x.toOption.map f = some b) : ∃ a, x = .ok a ∧ f a = b := by
  obtain ⟨a, ha, hf⟩ := Option.map_eq_some_iff.1 h
  exact ⟨a, toOption_eq_some ha, hf⟩

end Except

@[simp] theorem deref_some {α : Type*} (a : α) : deref (some a) = .ok a := rfl

theorem deref_eq_ok {α : Type*} {o : Option α} {a : α} (h : deref o = .ok a) : o = some a := by
  rcases o with - | b
  · cases h
  · rw [Except.ok.inj h]

end FusePosix
