import Mathlib.Tactic.Common

/-!
# Who an entry belongs to

A store that many entities share under computed keys. Its ledger notes, latest first, which entity
an entry was stored for and which entity it was used for. The ledger is sound if no entity ever
meets an entry of another one, neither to use it nor to overwrite it.

If nothing is used that was not stored (`Served`), the ledger is sound exactly if the keys tell the
entities in it apart (`sound_iff`).
-/

/-- One line of a ledger. -/
inductive Touch (ε κ : Type*) where
  /-- An entry was stored for an entity, under a key. -/
  | stored (entity : ε) (key : κ)
  /-- The entry under a key was used for an entity. -/
  | used (entity : ε) (key : κ)
  deriving DecidableEq, Repr

namespace Ledger

variable {ε κ : Type*}

/-- Every entity meets its own entries only, and uses only what was stored. -/
def Sound : List (Touch ε κ) → Prop
  | [] => True
  | .stored e k :: earlier => (∀ e', Touch.stored e' k ∈ earlier → e' = e) ∧ Sound earlier
  | .used e k :: earlier =>
    (Touch.stored e k ∈ earlier ∧ ∀ e', Touch.stored e' k ∈ earlier → e' = e) ∧ Sound earlier

/-- Only what was stored is used. -/
def Served : List (Touch ε κ) → Prop
  | [] => True
  | .stored _ _ :: earlier => Served earlier
  | .used _ k :: earlier => (∃ e, Touch.stored e k ∈ earlier) ∧ Served earlier

/-- An entity meets a key. -/
def Touches (l : List (Touch ε κ)) (e : ε) (k : κ) : Prop :=
  Touch.stored e k ∈ l ∨ Touch.used e k ∈ l

theorem touches_cons_of_touches {l : List (Touch ε κ)} {e : ε} {k : κ} (t : Touch ε κ)
    (h : Touches l e k) : Touches (t :: l) e k :=
  h.imp (List.mem_cons_of_mem t) (List.mem_cons_of_mem t)

theorem touches_stored_cons {l : List (Touch ε κ)} {e e' : ε} {k k' : κ} :
    Touches (.stored e' k' :: l) e k ↔ (e = e' ∧ k = k') ∨ Touches l e k := by
  simp only [Touches, List.mem_cons, Touch.stored.injEq, reduceCtorEq, false_or, or_assoc]

theorem touches_used_cons {l : List (Touch ε κ)} {e e' : ε} {k k' : κ} :
    Touches (.used e' k' :: l) e k ↔ (e = e' ∧ k = k') ∨ Touches l e k := by
  simp only [Touches, List.mem_cons, Touch.used.injEq, reduceCtorEq, false_or]
  exact or_left_comm

/-- In a sound ledger two entities that stored under one key are one. -/
theorem eq_of_stored {l : List (Touch ε κ)} (h : Sound l) {e e' : ε} {k : κ}
    (he : Touch.stored e k ∈ l) (he' : Touch.stored e' k ∈ l) : e = e' := by
  induction l with
  | nil => exact absurd he (by simp)
  | cons t earlier ih =>
    cases t with
    | stored e₀ k₀ =>
      obtain ⟨hfirst, hrest⟩ := h
      rcases List.mem_cons.1 he with heq | hmem <;> rcases List.mem_cons.1 he' with heq' | hmem'
      · exact (Touch.stored.inj (heq.trans heq'.symm)).1
      · obtain ⟨rfl, rfl⟩ := Touch.stored.inj heq
        exact (hfirst e' hmem').symm
      · obtain ⟨rfl, rfl⟩ := Touch.stored.inj heq'
        exact hfirst e hmem
      · exact ih hrest hmem hmem'
    | used e₀ k₀ => exact ih h.2 (by simpa using he) (by simpa using he')

/-- In a sound ledger whoever meets a key has stored under it. -/
theorem stored_of_touches {l : List (Touch ε κ)} (h : Sound l) {e : ε} {k : κ}
    (ht : Touches l e k) : Touch.stored e k ∈ l := by
  induction l with
  | nil => exact absurd ht (by simp [Touches])
  | cons t earlier ih =>
    cases t with
    | stored e₀ k₀ =>
      rcases touches_stored_cons.1 ht with ⟨rfl, rfl⟩ | ht
      · exact List.mem_cons_self
      · exact List.mem_cons_of_mem _ (ih h.2 ht)
    | used e₀ k₀ =>
      rcases touches_used_cons.1 ht with ⟨rfl, rfl⟩ | ht
      · exact List.mem_cons_of_mem _ h.1.1
      · exact List.mem_cons_of_mem _ (ih h.2 ht)

/-- **A ledger is sound exactly if no key is met by two entities.** -/
theorem sound_iff {l : List (Touch ε κ)} (hserved : Served l) :
    Sound l ↔ ∀ e e' k, Touches l e k → Touches l e' k → e = e' := by
  constructor
  · intro h e e' k he he'
    exact eq_of_stored h (stored_of_touches h he) (stored_of_touches h he')
  · intro h
    induction l with
    | nil => exact trivial
    | cons t earlier ih =>
      have hrest : ∀ e e' k, Touches earlier e k → Touches earlier e' k → e = e' :=
        fun e e' k he he' ↦
          h e e' k (touches_cons_of_touches t he) (touches_cons_of_touches t he')
      cases t with
      | stored e k =>
        refine ⟨fun e' he' ↦ ?_, ih hserved hrest⟩
        exact h e' e k (touches_cons_of_touches _ (Or.inl he')) (Or.inl List.mem_cons_self)
      | used e k =>
        have hown : ∀ e', Touch.stored e' k ∈ earlier → e' = e := fun e' he' ↦
          h e' e k (touches_cons_of_touches _ (Or.inl he')) (Or.inr List.mem_cons_self)
        obtain ⟨⟨e₀, he₀⟩, hserved⟩ := hserved
        have hself : Touch.stored e k ∈ earlier := hown e₀ he₀ ▸ he₀
        exact ⟨⟨hself, hown⟩, ih hserved hrest⟩

end Ledger
