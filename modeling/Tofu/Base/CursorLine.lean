import Mathlib.Data.List.Basic

/-!
# Lines with a cursor

A line that is edited at a cursor between its elements. What is before the cursor is kept
backwards, so that every operation works at the ends of the two lists. The operations are given
on the text and the index of the cursor as well, which is how editors keep a line.
-/

namespace Tofu

/-- What is before the cursor, nearest first, and what is behind it. -/
structure CursorLine (α : Type*) where
  before : List α
  behind : List α
  deriving DecidableEq, Repr

namespace CursorLine

variable {α : Type*}

/-- Nothing on either side of the cursor. -/
def empty : CursorLine α := { before := [], behind := [] }

/-- What is on the line. -/
def text (l : CursorLine α) : List α := l.before.reverse ++ l.behind

/-- How much stands before the cursor. -/
def cursor (l : CursorLine α) : Nat := l.before.length

/-- Puts an element before the cursor. -/
def insert (a : α) (l : CursorLine α) : CursorLine α := { l with before := a :: l.before }

/-- Takes the element before the cursor away, if there is one. -/
def removeLast (l : CursorLine α) : CursorLine α := { l with before := l.before.tail }

/-- Takes the element behind the cursor away, if there is one. -/
def removeThis (l : CursorLine α) : CursorLine α := { l with behind := l.behind.tail }

/-- Another element in the place of the last one. -/
def amend (a : α) (l : CursorLine α) : CursorLine α := l.removeLast.insert a

/-- Moves the cursor one element to the left, if there is one. -/
def left (l : CursorLine α) : CursorLine α :=
  match l.before with
  | [] => l
  | a :: before => { before, behind := a :: l.behind }

/-- Moves the cursor one element to the right, if there is one. -/
def right (l : CursorLine α) : CursorLine α :=
  match l.behind with
  | [] => l
  | a :: behind => { before := a :: l.before, behind }

variable (l : CursorLine α)

/-- The text before the cursor. -/
@[simp] theorem take_text : l.text.take l.cursor = l.before.reverse := by
  rw [text, cursor, ← List.length_reverse, List.take_left]

/-- The text behind the cursor. -/
@[simp] theorem drop_text : l.text.drop l.cursor = l.behind := by
  rw [text, cursor, ← List.length_reverse, List.drop_left]

/-- The cursor is in the text or at its end. -/
theorem cursor_le : l.cursor ≤ l.text.length := by
  rw [text, cursor, List.length_append, List.length_reverse]
  exact Nat.le_add_right _ _

private theorem cursor_lt_iff : l.cursor < l.text.length ↔ l.behind ≠ [] := by
  rw [text, cursor, List.length_append, List.length_reverse, ← List.length_pos_iff]
  omega

/-- An element is put in at the cursor. -/
theorem text_insert (a : α) :
    (l.insert a).text = l.text.take l.cursor ++ a :: l.text.drop l.cursor := by
  rw [take_text, drop_text, text, insert, List.reverse_cons, List.append_assoc]
  rfl

/-- In the words of lists, it is inserted at the index of the cursor. -/
theorem text_insert_eq_insertIdx (a : α) : (l.insert a).text = l.text.insertIdx l.cursor a := by
  have hinsert (pre : List α) :
      (pre ++ l.behind).insertIdx pre.length a = pre ++ a :: l.behind := by
    induction pre with
    | nil => rfl
    | cons c pre ih =>
      rw [List.cons_append, List.length_cons, List.insertIdx_succ_cons, ih, List.cons_append]
  rw [text_insert, take_text, drop_text, text, cursor, ← List.length_reverse, hinsert]

/-- The cursor stands behind what was put in. -/
@[simp] theorem cursor_insert (a : α) : (l.insert a).cursor = l.cursor + 1 := rfl

/-- The element at the index of the cursor goes. -/
theorem text_removeThis : l.removeThis.text = l.text.eraseIdx l.cursor := by
  rw [text, removeThis, text, cursor, ← List.length_reverse, List.eraseIdx_append_of_length_le
    (Nat.le_refl _), Nat.sub_self, List.eraseIdx_zero]

/-- The cursor stays when the element behind it goes. -/
@[simp] theorem cursor_removeThis : l.removeThis.cursor = l.cursor := rfl

/-- The element before the index of the cursor goes. -/
theorem text_removeLast (h : l.cursor ≠ 0) :
    l.removeLast.text = l.text.eraseIdx (l.cursor - 1) := by
  obtain ⟨before, behind⟩ := l
  cases before with
  | nil => exact absurd rfl h
  | cons a before =>
    have heq : (⟨a :: before, behind⟩ : CursorLine α).text =
        (⟨before, a :: behind⟩ : CursorLine α).text := by
      simp [text]
    rw [heq]
    exact text_removeThis ⟨before, a :: behind⟩

/-- The cursor goes back with the element before it. -/
@[simp] theorem cursor_removeLast : l.removeLast.cursor = l.cursor - 1 := by
  rw [cursor, removeLast, List.length_tail, cursor]

/-- At the start there is nothing to take away. -/
theorem removeLast_of_cursor_eq_zero (h : l.cursor = 0) : l.removeLast = l := by
  rw [cursor, List.length_eq_zero_iff] at h
  obtain ⟨before, behind⟩ := l
  obtain rfl : before = [] := h
  rfl

/-- Moving leaves the text. -/
@[simp] theorem text_left : l.left.text = l.text := by
  unfold left
  split
  · rfl
  · next a before h => simp [text, h]

/-- To the left the cursor stops at the start. -/
@[simp] theorem cursor_left : l.left.cursor = l.cursor - 1 := by
  unfold left
  split
  · next h => simp [cursor, h]
  · next a before h => simp [cursor, h]

/-- Moving leaves the text. -/
@[simp] theorem text_right : l.right.text = l.text := by
  unfold right
  split
  · rfl
  · next a behind h => simp [text, h]

/-- To the right it stops at the end. -/
theorem cursor_right :
    l.right.cursor = if l.cursor < l.text.length then l.cursor + 1 else l.cursor := by
  simp only [cursor_lt_iff]
  unfold right
  split
  · next h => simp [h]
  · next a behind h => simp [h, cursor]

/-- The last element is set. -/
theorem text_amend (a : α) (h : l.cursor ≠ 0) :
    (l.amend a).text = l.text.set (l.cursor - 1) a := by
  obtain ⟨before, behind⟩ := l
  cases before with
  | nil => exact absurd rfl h
  | cons b before =>
    simp only [amend, insert, removeLast, text, cursor, List.tail_cons, List.reverse_cons,
      List.length_cons, Nat.add_sub_cancel]
    rw [← List.length_reverse, List.append_assoc, List.append_assoc, List.set_append_right _ _
      (Nat.le_refl _), Nat.sub_self]
    rfl

/-- The cursor stays when the element before it is changed. -/
@[simp] theorem cursor_amend (a : α) (h : l.cursor ≠ 0) : (l.amend a).cursor = l.cursor := by
  rw [amend, cursor_insert, cursor_removeLast]
  omega

end CursorLine

end Tofu
