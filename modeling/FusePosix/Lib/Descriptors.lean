import FusePosix.Lib.Transition
import Mathlib.Data.Finset.Basic
import Mathlib.Data.Finset.Dedup
import Mathlib.Data.Finset.Lattice.Lemmas

/-!
# Descriptors

Descriptors, handles and whatever else an operating system hands out to be given back: they are
opened, used and closed, and between two of these steps some of them are open. `Descriptors.step` is
what the kernel lets happen. A descriptor that is open is not handed out again, and one that is not
open can neither be used nor closed. So a list of events is a run of `Descriptors.step` exactly if
nothing is used or closed that is not open; and if the run comes back to the descriptors that were
open before it, it has closed each of its own as often as it has opened it (`count_opened`).

The rules are for programs that open some descriptors, work with them, and close them all in the
end: `exec_opens`, `exec_uses` and `exec_closes` for the three parts, and `exec_bracket` for the
whole.
-/

namespace Descriptors

open Transition

variable {α : Type*} [DecidableEq α]

/-- What happens to a descriptor. -/
inductive Event (α : Type*) where
  | opened (fd : α)
  | used (fd : α)
  | closed (fd : α)
  deriving DecidableEq, Repr

/-- The open descriptors behind an event. -/
def step (s : Finset α) : Event α → Option (Finset α)
  | .opened fd => if fd ∈ s then none else some (insert fd s)
  | .used fd => if fd ∈ s then some s else none
  | .closed fd => if fd ∈ s then some (s.erase fd) else none

variable {s : Finset α} {fds : List α}

/-- Descriptors that are not open, opened one after the other. -/
theorem exec_opens (hnodup : fds.Nodup) (hfresh : ∀ fd ∈ fds, fd ∉ s) :
    exec step s (fds.map .opened) = some (fds.toFinset ∪ s) := by
  induction fds generalizing s with
  | nil => rw [List.map_nil, exec_nil, List.toFinset_nil, Finset.empty_union]
  | cons fd fds ih =>
    obtain ⟨hnot, hnodup⟩ := List.nodup_cons.1 hnodup
    have hfirst : step s (.opened fd) = some (insert fd s) :=
      if_neg (hfresh fd List.mem_cons_self)
    have hrest : ∀ x ∈ fds, x ∉ insert fd s := by
      intro x hx
      rw [Finset.mem_insert, not_or]
      exact ⟨fun h ↦ hnot (h ▸ hx), hfresh x (List.mem_cons_of_mem _ hx)⟩
    rw [List.map_cons, exec_cons, hfirst, Option.bind_some, ih hnodup hrest, List.toFinset_cons,
      Finset.union_insert, Finset.insert_union]

/-- Open descriptors, in use. -/
theorem exec_uses (hopen : ∀ fd ∈ fds, fd ∈ s) : exec step s (fds.map .used) = some s := by
  induction fds with
  | nil => rfl
  | cons fd fds ih =>
    have hfirst : step s (.used fd) = some s := if_pos (hopen fd List.mem_cons_self)
    rw [List.map_cons, exec_cons, hfirst, Option.bind_some]
    exact ih fun x hx ↦ hopen x (List.mem_cons_of_mem _ hx)

/-- Descriptors that have been opened, closed one after the other. -/
theorem exec_closes (hnodup : fds.Nodup) (hfresh : ∀ fd ∈ fds, fd ∉ s) :
    exec step (fds.toFinset ∪ s) (fds.map .closed) = some s := by
  induction fds with
  | nil => rw [List.map_nil, exec_nil, List.toFinset_nil, Finset.empty_union]
  | cons fd fds ih =>
    obtain ⟨hnot, hnodup⟩ := List.nodup_cons.1 hnodup
    have hout : fd ∉ fds.toFinset ∪ s := by
      rw [Finset.mem_union, List.mem_toFinset, not_or]
      exact ⟨hnot, hfresh fd List.mem_cons_self⟩
    have hfirst : step ((fd :: fds).toFinset ∪ s) (.closed fd) = some (fds.toFinset ∪ s) := by
      rw [List.toFinset_cons, Finset.insert_union]
      show (if fd ∈ insert fd (fds.toFinset ∪ s) then some _ else none) = _
      rw [if_pos (Finset.mem_insert_self _ _), Finset.erase_insert hout]
    rw [List.map_cons, exec_cons, hfirst, Option.bind_some]
    exact ih hnodup fun x hx ↦ hfresh x (List.mem_cons_of_mem _ hx)

/-- **The rule for a program that closes what it opens.** Its descriptors are fresh, and what it
does with them leaves the open descriptors as they are. -/
theorem exec_bracket {body : List (Event α)} (hnodup : fds.Nodup) (hfresh : ∀ fd ∈ fds, fd ∉ s)
    (hbody : exec step (fds.toFinset ∪ s) body = some (fds.toFinset ∪ s)) :
    exec step s (fds.map .opened ++ body ++ fds.map .closed) = some s := by
  rw [List.append_assoc, exec_append, exec_opens hnodup hfresh, Option.bind_some, exec_append,
    hbody, Option.bind_some, exec_closes hnodup hfresh]

/-- **What has been opened is open, or has been closed.** -/
theorem count_opened {events : List (Event α)} (fd : α) : ∀ {s t : Finset α},
    exec step s events = some t →
      events.count (.opened fd) + (if fd ∈ s then 1 else 0) =
        events.count (.closed fd) + if fd ∈ t then 1 else 0 := by
  induction events with
  | nil =>
    intro s t h
    rw [Option.some.inj h, List.count_nil, List.count_nil]
  | cons event events ih =>
    intro s t h
    obtain ⟨u, hu, hrest⟩ := Option.bind_eq_some_iff.1 h
    have hcount := ih hrest
    -- an event on `fd` itself flips whether it is open and is counted once; one on another
    -- descriptor does neither
    cases event with
    | opened x =>
      obtain ⟨hx, hu⟩ := Option.ite_none_left_eq_some.1 hu
      obtain rfl := Option.some.inj hu
      rw [List.count_cons, List.count_cons_of_ne (by simp)]
      by_cases hfd : x = fd
      · subst hfd
        simp only [Finset.mem_insert_self, if_true, beq_self_eq_true, hx, if_false] at hcount ⊢
        omega
      · simp only [Finset.mem_insert, Ne.symm hfd, false_or] at hcount
        simp only [beq_iff_eq, Event.opened.injEq, hfd, if_false]
        omega
    | used x =>
      obtain ⟨hx, hu⟩ := Option.ite_none_right_eq_some.1 hu
      obtain rfl := Option.some.inj hu
      rw [List.count_cons_of_ne (by simp), List.count_cons_of_ne (by simp)]
      exact hcount
    | closed x =>
      obtain ⟨hx, hu⟩ := Option.ite_none_right_eq_some.1 hu
      obtain rfl := Option.some.inj hu
      rw [List.count_cons_of_ne (by simp), List.count_cons]
      by_cases hfd : x = fd
      · subst hfd
        simp only [Finset.mem_erase, ne_eq, not_true, false_and, if_false, beq_self_eq_true,
          if_true, hx] at hcount ⊢
        omega
      · simp only [Finset.mem_erase, ne_eq, Ne.symm hfd, not_false_eq_true, true_and] at hcount
        simp only [beq_iff_eq, Event.closed.injEq, hfd, if_false]
        omega

end Descriptors
