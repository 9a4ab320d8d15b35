import Mathlib.Logic.Function.Iterate

/-!
# Linear histories

What an undo/redo stack is for: a sequence of states with a current one. A new state
discards those that were undone.
-/

namespace Tofu

/-- The states before the present one, latest first, and those that were undone, next
first. -/
structure Timeline (S : Type*) where
  past : List S
  present : S
  future : List S

namespace Timeline

variable {S : Type*}

/-- Nothing is behind or ahead. -/
def start (s : S) : Timeline S := { past := [], present := s, future := [] }

/-- A new state follows the present one. -/
def commit (t : Timeline S) (s : S) : Timeline S :=
  { past := t.present :: t.past, present := s, future := [] }

/-- Goes one step back, if there is one. -/
def undo (t : Timeline S) : Timeline S :=
  match t.past with
  | [] => t
  | s :: past => { past := past, present := s, future := t.present :: t.future }

/-- Goes one step ahead, if there is one. -/
def redo (t : Timeline S) : Timeline S :=
  match t.future with
  | [] => t
  | s :: future => { past := t.present :: t.past, present := s, future := future }

/-- Redoing takes an undo back. -/
theorem redo_undo {t : Timeline S} (h : t.past ≠ []) : t.undo.redo = t := by
  obtain ⟨past, present, future⟩ := t
  cases past with
  | nil => exact absurd rfl h
  | cons s past => rfl

/-- Undoing as many steps as there are and redoing them changes nothing. -/
theorem redo_iterate_undo_iterate {t : Timeline S} {k : Nat} (h : k ≤ t.past.length) :
    redo^[k] (undo^[k] t) = t := by
  induction k generalizing t with
  | zero => rfl
  | succ k ih =>
    have hne : t.past ≠ [] := List.ne_nil_of_length_pos (by omega)
    have hlen : k ≤ t.undo.past.length := by
      obtain ⟨past, present, future⟩ := t
      cases past with
      | nil => exact absurd rfl hne
      | cons s past => simpa [undo] using h
    rw [Function.iterate_succ_apply' redo, Function.iterate_succ_apply undo, ih hlen,
      redo_undo hne]

end Timeline

end Tofu
