import Mathlib.Data.List.Basic

/-!
# Binary search

The search of a sorted slice by a comparison with a target, as the standard library of Rust
documents it: the index of some match, or that where a match could be inserted. Which match
is found is left open, and so is the result for a slice that is not sorted.
-/

namespace Tofu

variable {α : Type}

/-- The comparison is less at first, then equal and then greater. -/
def SortedBy (f : α → Ordering) (xs : List α) : Prop :=
  xs.Pairwise fun a b ↦ (f a = .eq → f b ≠ .lt) ∧ (f a = .gt → f b = .gt)

/-- `binary_search_by`: a match is `ok` and a place for one is an `error`. -/
structure BinarySearch (α : Type) where
  searchBy : List α → (α → Ordering) → Except Nat Nat
  ok_spec : ∀ xs f i, SortedBy f xs → searchBy xs f = .ok i → ∃ x, xs[i]? = some x ∧ f x = .eq
  error_spec : ∀ xs f i, SortedBy f xs → searchBy xs f = .error i →
    i ≤ xs.length ∧ ∀ j x, xs[j]? = some x → (j < i → f x = .lt) ∧ (i ≤ j → f x = .gt)

namespace BinarySearch

/-- `binary_search_by(f).unwrap_or_else(identity)`. -/
def index (B : BinarySearch α) (xs : List α) (f : α → Ordering) : Nat :=
  match B.searchBy xs f with
  | .ok i => i
  | .error i => i

/-- Where at most one element matches, the index is that of the first element which is not
less. -/
theorem index_eq_findIdx (B : BinarySearch α) {xs : List α} {f : α → Ordering}
    (h : xs.Pairwise fun a b ↦ f a ≠ .lt → f b = .gt) :
    B.index xs f = xs.findIdx fun x ↦ decide (f x ≠ .lt) := by
  have hsorted : SortedBy f xs := by
    apply h.imp
    intro a b hab
    refine ⟨fun ha ↦ ?_, fun ha ↦ hab (by rw [ha]; decide)⟩
    rw [hab (by rw [ha]; decide)]
    decide
  rw [index]
  cases hres : B.searchBy xs f with
  | ok i =>
    obtain ⟨x, hx, heq⟩ := B.ok_spec xs f i hsorted hres
    obtain ⟨hi, rfl⟩ := List.getElem?_eq_some_iff.mp hx
    apply Eq.symm
    rw [List.findIdx_eq hi]
    refine ⟨by rw [heq]; decide, fun j hj ↦ ?_⟩
    -- an element before the match that is not less would make the match greater
    have hgt := List.pairwise_iff_getElem.mp h j i (Nat.lt_trans hj hi) hi hj
    rw [heq] at hgt
    simpa using hgt
  | error i =>
    obtain ⟨hle, hspec⟩ := B.error_spec xs f i hsorted hres
    apply Eq.symm
    by_cases hi : i < xs.length
    · rw [List.findIdx_eq hi]
      refine ⟨?_, fun j hj ↦ ?_⟩
      · have hgt := (hspec i xs[i] (List.getElem?_eq_getElem hi)).2 (Nat.le_refl i)
        rw [hgt]
        decide
      · have hlt := (hspec j xs[j] (List.getElem?_eq_getElem (Nat.lt_trans hj hi))).1 hj
        rw [hlt]
        decide
    · obtain rfl : i = xs.length := by omega
      apply List.findIdx_eq_length.mpr
      intro x hx
      obtain ⟨j, hj, rfl⟩ := List.getElem_of_mem hx
      rw [(hspec j xs[j] (List.getElem?_eq_getElem hj)).1 hj]
      decide

/-- A search that looks at the elements in turn. -/
def scan (f : α → Ordering) : List α → Except Nat Nat
  | [] => .error 0
  | x :: xs =>
    match f x with
    | .lt =>
      match scan f xs with
      | .ok i => .ok (i + 1)
      | .error i => .error (i + 1)
    | .eq => .ok 0
    | .gt => .error 0

private theorem scan_ok {f : α → Ordering} {xs : List α} {i : Nat} (h : scan f xs = .ok i) :
    ∃ x, xs[i]? = some x ∧ f x = .eq := by
  induction xs generalizing i with
  | nil => cases h
  | cons x xs ih =>
    rw [scan] at h
    cases hx : f x with
    | lt =>
      simp only [hx] at h
      cases hrest : scan f xs with
      | ok j =>
        rw [hrest] at h
        cases h
        exact ih hrest
      | error j =>
        rw [hrest] at h
        cases h
    | eq =>
      simp only [hx] at h
      cases h
      exact ⟨x, rfl, hx⟩
    | gt =>
      simp only [hx] at h
      cases h

private theorem scan_error {f : α → Ordering} {xs : List α} {i : Nat} (hs : SortedBy f xs)
    (h : scan f xs = .error i) :
    i ≤ xs.length ∧ ∀ j x, xs[j]? = some x → (j < i → f x = .lt) ∧ (i ≤ j → f x = .gt) := by
  induction xs generalizing i with
  | nil =>
    cases h
    exact ⟨Nat.le_refl 0, fun j x hx ↦ by simp at hx⟩
  | cons x xs ih =>
    obtain ⟨hhead, htail⟩ := List.pairwise_cons.mp hs
    rw [scan] at h
    cases hx : f x with
    | lt =>
      simp only [hx] at h
      cases hrest : scan f xs with
      | ok j =>
        rw [hrest] at h
        cases h
      | error j =>
        rw [hrest] at h
        cases h
        obtain ⟨hle, hspec⟩ := ih htail hrest
        refine ⟨Nat.succ_le_succ hle, fun k y hy ↦ ?_⟩
        cases k with
        | zero =>
          cases hy
          exact ⟨fun _ ↦ hx, fun hk ↦ absurd hk (Nat.not_succ_le_zero j)⟩
        | succ k =>
          rw [Nat.add_lt_add_iff_right, Nat.add_le_add_iff_right]
          exact hspec k y hy
    | eq =>
      simp only [hx] at h
      cases h
    | gt =>
      simp only [hx] at h
      cases h
      refine ⟨Nat.zero_le _, fun k y hy ↦ ⟨fun hk ↦ absurd hk (Nat.not_lt_zero k), fun _ ↦ ?_⟩⟩
      cases k with
      | zero =>
        cases hy
        exact hx
      | succ k => exact (hhead y (List.mem_of_getElem? hy)).2 hx

/-- Looking at the elements in turn finds what a binary search may find. -/
def reference (α : Type) : BinarySearch α where
  searchBy xs f := scan f xs
  ok_spec _ _ _ _ h := scan_ok h
  error_spec _ _ _ hs h := scan_error hs h

end BinarySearch

end Tofu
