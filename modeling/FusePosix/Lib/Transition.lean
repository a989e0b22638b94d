import Mathlib.Algebra.GroupWithZero.Nat
import Mathlib.Data.List.Induction
import Mathlib.Tactic.Common

/-!
# Runs of a labelled system

A system that takes one labelled step after the other: `step s a` is the state behind action `a`, or
`none` if the action is not enabled in `s`. Every source of nondeterminism (the schedule, the
answers of the environment) is part of the label, so a run is determined by its first state and its
list of actions, and `exec` computes where it leads.

Rules for properties of runs:

* `run_induction` is the invariant rule. The invariant may mention the actions that led to the
  state, so a statement about what has happened so far needs no bookkeeping in the state. It may
  also assume that every action of the run is admissible.
* `along_iff_stepsMeet` turns a property of all states of a run into a condition on its steps. If
  every step from a good state keeps it good exactly if it meets the condition, then all states of
  a run are good exactly if all its steps meet it. `along_and_stepsMeet_iff` is the same with a
  second property, of the steps, and `stepsMeet_iff` is about a property of the steps alone.
* `exists_done_of_measure` is the rule for loops that end.
* `cost_le_of_potential` is the rule for systems that get new work while they run: what their steps
  cost is paid for by what the labels bring in.
-/

namespace Transition

variable {σ α : Type*} (step : σ → α → Option σ)

/-- The state a list of actions leads to. -/
def exec : σ → List α → Option σ
  | s, [] => some s
  | s, a :: as => (step s a).bind fun t ↦ exec t as

@[simp] theorem exec_nil (s : σ) : exec step s [] = some s := rfl

theorem exec_cons (s : σ) (a : α) (as : List α) :
    exec step s (a :: as) = (step s a).bind fun t ↦ exec step t as :=
  rfl

/-- A run of two parts is the one behind the other. -/
theorem exec_append (as bs : List α) : ∀ s : σ,
    exec step s (as ++ bs) = (exec step s as).bind fun t ↦ exec step t bs := by
  induction as with
  | nil => intro s; rfl
  | cons a as ih =>
    intro s
    rw [List.cons_append, exec_cons, exec_cons, Option.bind_assoc]
    exact Option.bind_congr fun t _ ↦ ih t

/-- The last step of a run. -/
theorem exec_concat {as : List α} {a : α} {s u : σ} (h : exec step s (as ++ [a]) = some u) :
    ∃ t, exec step s as = some t ∧ step t a = some u := by
  rw [exec_append, Option.bind_eq_some_iff] at h
  obtain ⟨t, ht, hlast⟩ := h
  refine ⟨t, ht, ?_⟩
  rw [exec_cons, Option.bind_eq_some_iff] at hlast
  obtain ⟨v, hv, hnil⟩ := hlast
  rw [hv, ← hnil, exec_nil]

/-- A pass over a list that may fail is a run. -/
theorem exec_of_foldlM {ε : Type*} {f : σ → α → Except ε σ} {as : List α} : ∀ {s t : σ},
    as.foldlM f s = .ok t → exec (fun s a ↦ (f s a).toOption) s as = some t := by
  induction as with
  | nil => exact fun h ↦ congrArg some (Except.ok.inj h)
  | cons a as ih =>
    intro s t h
    rw [List.foldlM_cons] at h
    rcases hfirst : f s a with e | u
    · rw [hfirst] at h
      cases h
    · rw [hfirst] at h
      rw [exec_cons, hfirst]
      exact ih h

/-- The system with a guard: it takes a step only if it is allowed to. -/
def guarded (allowed : σ → α → Bool) (s : σ) (a : α) : Option σ :=
  if allowed s a then step s a else none

/-- **The invariant rule.** What holds at the start and survives every admissible step holds behind
every run of admissible actions. -/
theorem run_induction {s₀ : σ} {Admissible : α → Prop} {Inv : List α → σ → Prop}
    (hinit : Inv [] s₀)
    (hstep : ∀ as a s t, Inv as s → Admissible a → step s a = some t → Inv (as ++ [a]) t)
    {as : List α} (has : ∀ a ∈ as, Admissible a) {s : σ} (h : exec step s₀ as = some s) :
    Inv as s := by
  induction as using List.reverseRecOn generalizing s with
  | nil =>
    rw [exec_nil, Option.some.injEq] at h
    exact h ▸ hinit
  | append_singleton as a ih =>
    obtain ⟨t, ht, hlast⟩ := exec_concat step h
    have hprev := ih (fun b hb ↦ has b (List.mem_append_left _ hb)) ht
    exact hstep as a t s hprev (has a (by simp)) hlast

/-- Every step of the run meets a condition on the state before it and the action. -/
def StepsMeet (G : σ → α → Prop) : σ → List α → Prop
  | _, [] => True
  | s, a :: as => ∀ t, step s a = some t → G s a ∧ StepsMeet G t as

/-- Whether the steps of a run meet a condition can be looked up step by step. -/
instance decidableStepsMeet (G : σ → α → Prop) [∀ s a, Decidable (G s a)] :
    ∀ (s : σ) (as : List α), Decidable (StepsMeet step G s as)
  | _, [] => isTrue trivial
  | s, a :: as =>
    have _ := fun t ↦ decidableStepsMeet G t as
    decidable_of_iff (∀ t ∈ step s a, G s a ∧ StepsMeet step G t as) Iff.rfl

/-- Every state of the run, the first and the last included, has a property. -/
def Along (P : σ → Prop) : σ → List α → Prop
  | s, [] => P s
  | s, a :: as => P s ∧ ∀ t, step s a = some t → Along P t as

variable {step}

theorem along_start {P : σ → Prop} {s : σ} {as : List α} (h : Along step P s as) : P s := by
  cases as with
  | nil => exact h
  | cons a as => exact h.1

theorem along_end {P : σ → Prop} {as : List α} : ∀ {s t : σ},
    Along step P s as → exec step s as = some t → P t := by
  induction as with
  | nil => exact fun hP h ↦ Option.some.inj h ▸ hP
  | cons a as ih =>
    intro s t hP h
    obtain ⟨u, hu, hrest⟩ := Option.bind_eq_some_iff.1 h
    exact ih (hP.2 u hu) hrest

theorem along_mono {P Q : σ → Prop} (h : ∀ s, P s → Q s) {as : List α} :
    ∀ {s : σ}, Along step P s as → Along step Q s as := by
  induction as with
  | nil => exact fun hP ↦ h _ hP
  | cons a as ih => exact fun hP ↦ ⟨h _ hP.1, fun t ht ↦ ih (hP.2 t ht)⟩

theorem guarded_eq_some {allowed : σ → α → Bool} {s t : σ} {a : α}
    (h : guarded step allowed s a = some t) : allowed s a = true ∧ step s a = some t := by
  rw [guarded] at h
  split_ifs at h with hallowed
  exact ⟨hallowed, h⟩

/-- **A run of the guarded system** is a run of the system, and all its steps are allowed. -/
theorem exec_of_guarded {allowed : σ → α → Bool} {as : List α} : ∀ {s t : σ},
    exec (guarded step allowed) s as = some t →
      exec step s as = some t ∧ StepsMeet step (fun s a ↦ allowed s a = true) s as := by
  induction as with
  | nil => exact fun h ↦ ⟨h, trivial⟩
  | cons a as ih =>
    intro s t h
    obtain ⟨u, hu, hrest⟩ := Option.bind_eq_some_iff.1 h
    obtain ⟨hallowed, hstep⟩ := guarded_eq_some hu
    obtain ⟨hrun, hmeet⟩ := ih hrest
    refine ⟨by rw [exec_cons, hstep, Option.bind_some, hrun], fun v hv ↦ ?_⟩
    obtain rfl := Option.some.inj (hstep.symm.trans hv)
    exact ⟨hallowed, hmeet⟩

theorem stepsMeet_mono {G H : σ → α → Prop} (h : ∀ s a, G s a → H s a) {as : List α} :
    ∀ {s : σ}, StepsMeet step G s as → StepsMeet step H s as := by
  induction as with
  | nil => exact fun _ ↦ trivial
  | cons a as ih => exact fun hG t ht ↦ ⟨h _ a (hG t ht).1, ih (hG t ht).2⟩

/-- **A property of all states and one of all steps as a condition on the steps.** The invariant is
what the steps need to know about good states besides their being good. -/
theorem along_and_stepsMeet_iff {Inv P : σ → Prop} {R G : σ → α → Prop}
    (hstep : ∀ s a t, Inv s → P s → step s a = some t → Inv t ∧ (P t ∧ R s a ↔ G s a))
    (as : List α) :
    ∀ s, Inv s → P s → (Along step P s as ∧ StepsMeet step R s as ↔ StepsMeet step G s as) := by
  induction as with
  | nil => exact fun s _ hP ↦ iff_of_true ⟨hP, trivial⟩ trivial
  | cons a as ih =>
    intro s hI hP
    constructor
    · rintro ⟨halong, hmeet⟩ t ht
      obtain ⟨hIt, hiff⟩ := hstep s a t hI hP ht
      have hrest := halong.2 t ht
      have hPt := along_start hrest
      exact ⟨hiff.1 ⟨hPt, (hmeet t ht).1⟩, (ih t hIt hPt).1 ⟨hrest, (hmeet t ht).2⟩⟩
    · intro h
      have hnext : ∀ t, step s a = some t →
          R s a ∧ Along step P t as ∧ StepsMeet step R t as := by
        intro t ht
        obtain ⟨hIt, hiff⟩ := hstep s a t hI hP ht
        obtain ⟨hPt, hR⟩ := hiff.2 (h t ht).1
        exact ⟨hR, (ih t hIt hPt).2 (h t ht).2⟩
      exact ⟨⟨hP, fun t ht ↦ (hnext t ht).2.1⟩, fun t ht ↦ ⟨(hnext t ht).1, (hnext t ht).2.2⟩⟩

/-- **A property of all states as a condition on the steps.** -/
theorem along_iff_stepsMeet {Inv P : σ → Prop} {G : σ → α → Prop}
    (hstep : ∀ s a t, Inv s → P s → step s a = some t → Inv t ∧ (P t ↔ G s a)) (as : List α)
    (s : σ) (hI : Inv s) (hP : P s) : Along step P s as ↔ StepsMeet step G s as := by
  have hall : ∀ (as : List α) (s : σ), StepsMeet step (fun _ _ ↦ True) s as := by
    intro as
    induction as with
    | nil => exact fun s ↦ trivial
    | cons a as ih => exact fun s t _ ↦ ⟨trivial, ih t⟩
  rw [← along_and_stepsMeet_iff (R := fun _ _ ↦ True) (fun s a t hs hp ht ↦ ?_) as s hI hP]
  · exact (and_iff_left (hall as s)).symm
  · obtain ⟨hIt, hiff⟩ := hstep s a t hs hp ht
    exact ⟨hIt, (and_iff_left trivial).trans hiff⟩

/-- **One condition on the steps in place of another**, under an invariant that it keeps. -/
theorem stepsMeet_iff {Inv : σ → Prop} {R G : σ → α → Prop}
    (hstep : ∀ s a t, Inv s → step s a = some t → (R s a ↔ G s a) ∧ (G s a → Inv t))
    (as : List α) : ∀ s, Inv s → (StepsMeet step R s as ↔ StepsMeet step G s as) := by
  induction as with
  | nil => exact fun s _ ↦ Iff.rfl
  | cons a as ih =>
    intro s hI
    refine forall_congr' fun t ↦ forall_congr' fun ht ↦ ?_
    obtain ⟨hiff, hkeeps⟩ := hstep s a t hI ht
    rw [hiff]
    exact and_congr_right fun hG ↦ ih t (hkeeps hG)

/-- **The rule for loops with a measure.** If every turn either ends the loop or lowers the measure,
the loop ends after as many more turns as the measure says, whatever the labels. -/
theorem exists_done_of_measure {Inv Done : σ → Prop} {μ : σ → ℕ}
    (hstep : ∀ s a, Inv s → ∃ t, step s a = some t ∧ (Done t ∨ Inv t ∧ μ t < μ s))
    (as : List α) : ∀ s, Inv s → μ s < as.length →
      ∃ n ≤ μ s, ∃ t, exec step s (as.take (n + 1)) = some t ∧ Done t := by
  induction as with
  | nil => exact fun s _ h ↦ absurd h (Nat.not_lt_zero _)
  | cons a as ih =>
    intro s hI hlength
    obtain ⟨t, ht, hdone | ⟨hIt, hless⟩⟩ := hstep s a hI
    · refine ⟨0, Nat.zero_le _, t, ?_, hdone⟩
      rw [List.take_succ_cons, List.take_zero, exec_cons, ht, Option.bind_some, exec_nil]
    · rw [List.length_cons] at hlength
      obtain ⟨n, hn, u, hu, hdone⟩ := ih t hIt (by omega)
      refine ⟨n + 1, by omega, u, ?_, hdone⟩
      rw [List.take_succ_cons, exec_cons, ht, Option.bind_some, hu]

/-- **The potential rule.** If every step is paid for, by what the state has saved up or by what its
label brings in, then so is every run. -/
theorem cost_le_of_potential {Admissible : α → Prop} {Inv : σ → Prop} {μ : σ → ℕ}
    {cost gain : α → ℕ}
    (hstep : ∀ s a t, Inv s → Admissible a → step s a = some t →
      Inv t ∧ cost a + μ t ≤ gain a + μ s) {as : List α} :
    ∀ {s u : σ}, Inv s → (∀ a ∈ as, Admissible a) → exec step s as = some u →
      (as.map cost).sum + μ u ≤ (as.map gain).sum + μ s := by
  induction as with
  | nil =>
    intro s u _ _ hu
    rw [exec_nil, Option.some.injEq] at hu
    exact hu ▸ Nat.le_refl _
  | cons a as ih =>
    intro s u hs has hu
    rw [exec_cons, Option.bind_eq_some_iff] at hu
    obtain ⟨t, ht, hu⟩ := hu
    obtain ⟨hInv, hpaid⟩ := hstep s a t hs (has a List.mem_cons_self) ht
    have hrest := ih hInv (fun b hb ↦ has b (List.mem_cons_of_mem _ hb)) hu
    rw [List.map_cons, List.map_cons, List.sum_cons, List.sum_cons]
    omega

/-- **The invariant rule for steps that meet a condition.** -/
theorem inv_of_stepsMeet {Admissible : α → Prop} {Inv : σ → Prop} {G : σ → α → Prop}
    (hstep : ∀ s a t, Inv s → Admissible a → G s a → step s a = some t → Inv t) {as : List α} :
    ∀ {s u : σ}, Inv s → (∀ a ∈ as, Admissible a) → StepsMeet step G s as →
      exec step s as = some u → Inv u := by
  induction as with
  | nil =>
    intro s u hs _ _ hu
    rw [exec_nil, Option.some.injEq] at hu
    exact hu ▸ hs
  | cons a as ih =>
    intro s u hs has hG hu
    rw [exec_cons, Option.bind_eq_some_iff] at hu
    obtain ⟨t, ht, hu⟩ := hu
    obtain ⟨hfirst, hrest⟩ := hG t ht
    have ht' := hstep s a t hs (has a List.mem_cons_self) hfirst ht
    exact ih ht' (fun b hb ↦ has b (List.mem_cons_of_mem _ hb)) hrest hu

/-- If all steps of a run meet a condition, those of its first part do, and so does its last one. -/
theorem stepsMeet_concat {G : σ → α → Prop} {as : List α} {a : α} :
    ∀ {s : σ}, StepsMeet step G s (as ++ [a]) →
      StepsMeet step G s as ∧
        ∀ t u, exec step s as = some t → step t a = some u → G t a := by
  induction as with
  | nil =>
    intro s h
    refine ⟨trivial, fun t u ht hu ↦ ?_⟩
    rw [exec_nil, Option.some.injEq] at ht
    subst ht
    exact (h u hu).1
  | cons b as ih =>
    intro s h
    refine ⟨fun t ht ↦ ⟨(h t ht).1, (ih (h t ht).2).1⟩, fun t u ht hu ↦ ?_⟩
    obtain ⟨v, hv, hrest⟩ := Option.bind_eq_some_iff.1 ht
    exact (ih (h v hv).2).2 t u hrest hu

/-- **The invariant rule for steps that meet a condition**, with the actions that led to the
state. -/
theorem run_induction_of_stepsMeet {s₀ : σ} {Admissible : α → Prop} {Inv : List α → σ → Prop}
    {G : σ → α → Prop} (hinit : Inv [] s₀)
    (hstep : ∀ as a s t, Inv as s → Admissible a → G s a → step s a = some t →
      Inv (as ++ [a]) t)
    {as : List α} (has : ∀ a ∈ as, Admissible a) (hG : StepsMeet step G s₀ as) {s : σ}
    (h : exec step s₀ as = some s) : Inv as s := by
  induction as using List.reverseRecOn generalizing s with
  | nil =>
    rw [exec_nil, Option.some.injEq] at h
    exact h ▸ hinit
  | append_singleton as a ih =>
    obtain ⟨t, ht, hlast⟩ := exec_concat step h
    obtain ⟨hGprev, hGlast⟩ := stepsMeet_concat hG
    have hprev := ih (fun b hb ↦ has b (List.mem_append_left _ hb)) hGprev ht
    exact hstep as a t s hprev (has a (by simp)) (hGlast t s ht hlast) hlast

end Transition
