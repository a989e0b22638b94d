import Mathlib.Data.Int.Order.Basic
import Mathlib.Data.List.Basic
import Mathlib.Tactic.Common

/-!
# A cache that many calls read through

A call for a key reads the clock and looks into the cache. If there is an entry that has not
expired, that is its answer. Otherwise the call asks for the value, stores it, to expire a fixed
`duration` after the call has read the clock, and reads the entry back for its answer. Between these
accesses other calls go on, also for the same key, so what a call reads back need not be what it has
stored.

How old can an answer be? As old as `duration` if it comes straight from the cache; and an entry
that is read back may have been stored by a call that has started long ago and been slow. If calls
store at most `slack` seconds after they have started, the entry is not older than that by much:
whoever has stored it did so after the reading call had started.

`Sound` is the invariant behind this, and there is one rule for each access. What counts as the
value that has been asked for is left to the user of the rules (`Fetched`).
-/

namespace ReadThrough

variable {κ ν : Type*}

/-- The next access of a call that has found no entry. -/
inductive Stage (ν : Type*) where
  | asking
  | storing (value : ν)
  | returning
  deriving DecidableEq, Repr

/-- The call is about to store its value. -/
def Stage.isStoring : Stage ν → Bool
  | .storing _ => true
  | .asking | .returning => false

/-- A call on its way: its key, what the clock showed when it started, and its next access. -/
structure Call (κ ν : Type*) where
  key : κ
  started : ℤ
  stage : Stage ν

/-- What holds between the entries of the cache, with the ends of their lives, and the calls on
their way, when the clock shows `clock`. -/
structure Sound (duration : ℤ) (slack : ℕ) (Fetched : κ → ℤ → ν → Prop) (clock : ℤ)
    (entries : κ → Option (ℤ × ν)) (calls : List (Call κ ν)) : Prop where
  entry : ∀ key expiry value, entries key = some (expiry, value) →
    Fetched key (expiry - duration) value
  started : ∀ c ∈ calls, c.started ≤ clock
  storing : ∀ c ∈ calls, ∀ value, c.stage = .storing value → Fetched c.key c.started value
  /-- A call that is about to read back finds an entry, and not a very old one. -/
  returning : ∀ c ∈ calls, c.stage = .returning → ∃ expiry value,
    entries c.key = some (expiry, value) ∧ c.started + duration ≤ expiry + slack

namespace Sound

variable {duration clock : ℤ} {slack : ℕ} {Fetched : κ → ℤ → ν → Prop}
  {entries entries' : κ → Option (ℤ × ν)} {calls calls' : List (Call κ ν)} {c : Call κ ν} {k : ℕ}

/-- Without calls, everything rests on the entries. -/
theorem start (h : ∀ key expiry value, entries key = some (expiry, value) →
    Fetched key (expiry - duration) value) :
    Sound duration slack Fetched clock entries ([] : List (Call κ ν)) :=
  ⟨h, by simp, by simp, by simp⟩

/-- The clock goes on. -/
theorem tick (h : Sound duration slack Fetched clock entries calls) {now : ℤ} (hnow : clock ≤ now) :
    Sound duration slack Fetched now entries calls :=
  ⟨h.entry, fun c hc ↦ Int.le_trans (h.started c hc) hnow, h.storing, h.returning⟩

/-- More has been asked for. -/
theorem mono (h : Sound duration slack Fetched clock entries calls)
    {Fetched' : κ → ℤ → ν → Prop}
    (hmore : ∀ key asked value, Fetched key asked value → Fetched' key asked value) :
    Sound duration slack Fetched' clock entries calls :=
  ⟨fun key expiry value hentry ↦ hmore _ _ _ (h.entry key expiry value hentry), h.started,
    fun c hc value hstage ↦ hmore _ _ _ (h.storing c hc value hstage), h.returning⟩

/-- Calls that are told to be the same or gone. -/
theorem sub (h : Sound duration slack Fetched clock entries calls) (hsub : calls' ⊆ calls) :
    Sound duration slack Fetched clock entries calls' :=
  ⟨h.entry, fun c hc ↦ h.started c (hsub hc), fun c hc ↦ h.storing c (hsub hc),
    fun c hc ↦ h.returning c (hsub hc)⟩

/-- A call that has found nothing it may use. -/
theorem joined (h : Sound duration slack Fetched clock entries calls) (key : κ) :
    Sound duration slack Fetched clock entries (⟨key, clock, .asking⟩ :: calls) := by
  refine ⟨h.entry, ?_, ?_, ?_⟩
  · exact List.forall_mem_cons.2 ⟨le_rfl, h.started⟩
  · exact List.forall_mem_cons.2 ⟨(fun _ hstage ↦ by cases hstage), h.storing⟩
  · exact List.forall_mem_cons.2 ⟨(fun hstage ↦ by cases hstage), h.returning⟩

/-- A call has got the value. -/
theorem fetched (h : Sound duration slack Fetched clock entries (c :: calls)) {value : ν}
    (hfetched : Fetched c.key c.started value) :
    Sound duration slack Fetched clock entries ({ c with stage := .storing value } :: calls) := by
  have hrest := h.sub (List.subset_cons_self c calls)
  refine ⟨h.entry, ?_, ?_, ?_⟩
  · exact List.forall_mem_cons.2 ⟨h.started c List.mem_cons_self, hrest.started⟩
  · refine List.forall_mem_cons.2 ⟨fun value' hstage ↦ ?_, hrest.storing⟩
    obtain rfl := Stage.storing.inj hstage
    exact hfetched
  · exact List.forall_mem_cons.2 ⟨(fun hstage ↦ by cases hstage), hrest.returning⟩

/-- **A call stores its value.** Others that are about to read the same key back will find this
one. -/
theorem stored (h : Sound duration slack Fetched clock entries (c :: calls)) {value : ν}
    (hstage : c.stage = .storing value) (hintime : clock ≤ c.started + slack)
    (hself : entries' c.key = some (c.started + duration, value))
    (hothers : ∀ key, key ≠ c.key → entries' key = entries key) :
    Sound duration slack Fetched clock entries' ({ c with stage := .returning } :: calls) := by
  have hrest := h.sub (List.subset_cons_self c calls)
  have hstarted := h.started c List.mem_cons_self
  refine ⟨fun key expiry value' hentry ↦ ?_, ?_, ?_, ?_⟩
  · by_cases hkey : key = c.key
    · subst hkey
      obtain ⟨rfl, rfl⟩ := Prod.mk.inj (Option.some.inj (hself.symm.trans hentry))
      rw [Int.add_sub_cancel]
      exact h.storing c List.mem_cons_self value hstage
    · exact h.entry key expiry value' ((hothers key hkey).symm.trans hentry)
  · exact List.forall_mem_cons.2 ⟨hstarted, hrest.started⟩
  · exact List.forall_mem_cons.2 ⟨(fun _ hstage ↦ by cases hstage), hrest.storing⟩
  · have hyoung : c.started + duration ≤ c.started + duration + slack := by omega
    refine List.forall_mem_cons.2 ⟨fun _ ↦ ⟨_, _, hself, hyoung⟩, fun c' hc' hreturning ↦ ?_⟩
    by_cases hkey : c'.key = c.key
    · have hstarted' := hrest.started c' hc'
      exact ⟨_, _, (congrArg entries' hkey).trans hself, by omega⟩
    · obtain ⟨expiry, value', hentry, hyoung⟩ := hrest.returning c' hc' hreturning
      exact ⟨expiry, value', (hothers _ hkey).trans hentry, hyoung⟩

/-- An entry that may still be used is not older than `duration`. -/
theorem hit (h : Sound duration slack Fetched clock entries calls) {key : κ} {expiry now : ℤ}
    {value : ν} (hentry : entries key = some (expiry, value)) (hfresh : now ≤ expiry) :
    ∃ asked, Fetched key asked value ∧ now - duration ≤ asked :=
  ⟨expiry - duration, h.entry key expiry value hentry, by omega⟩

/-- **What a call reads back is there**, and was asked for at most `slack` before the call. -/
theorem readBack (h : Sound duration slack Fetched clock entries calls) (hc : c ∈ calls)
    (hstage : c.stage = .returning) : ∃ expiry value, entries c.key = some (expiry, value) ∧
      ∃ asked, Fetched c.key asked value ∧ c.started - slack ≤ asked := by
  obtain ⟨expiry, value, hentry, hyoung⟩ := h.returning c hc hstage
  exact ⟨expiry, value, hentry, expiry - duration, h.entry _ _ _ hentry, by omega⟩

end Sound

end ReadThrough
