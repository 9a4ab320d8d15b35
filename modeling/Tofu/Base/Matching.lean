import Mathlib.Data.List.Basic
import Mathlib.Data.Nat.Find

/-!
# Occurrences of a pattern

A pattern is a list of tests, one for each element it covers. `occurrences` is the list of
starts of its occurrences that do not overlap, leftmost first, and `leftmost` the first
of them. A search that takes the leftmost occurrence and goes on behind it, until there is
none, goes through the occurrences. `Greedy` says the same of any notion of occurrence.
-/

namespace Tofu.Matching

variable {α : Type*} {tests : List (α → Bool)}

/-- The list starts with elements that pass the tests in turn. -/
def startsWith : List (α → Bool) → List α → Bool
  | [], _ => true
  | _ :: _, [] => false
  | t :: ts, x :: xs => t x && startsWith ts xs

/-- Offset of the first occurrence. -/
def leftmost (tests : List (α → Bool)) : List α → Option Nat
  | [] => none
  | x :: xs =>
    if startsWith tests (x :: xs) then some 0 else (leftmost tests xs).map (· + 1)

/-- Starts of the occurrences in a list that begins at `pos`, after `skip` elements. -/
def occurrences (tests : List (α → Bool)) : Nat → Nat → List α → List Nat
  | _, _, [] => []
  | skip + 1, pos, _ :: xs => occurrences tests skip (pos + 1) xs
  | 0, pos, x :: xs =>
    if startsWith tests (x :: xs) then pos :: occurrences tests (tests.length - 1) (pos + 1) xs
    else occurrences tests 0 (pos + 1) xs

/-- Each occurrence covers as many elements as there are tests. -/
theorem length_le_of_startsWith {tests : List (α → Bool)} {xs : List α}
    (h : startsWith tests xs = true) : tests.length ≤ xs.length := by
  induction tests generalizing xs with
  | nil => exact Nat.zero_le _
  | cons t ts ih =>
    cases xs with
    | nil => simp [startsWith] at h
    | cons x xs =>
      rw [startsWith, Bool.and_eq_true] at h
      exact Nat.succ_le_succ (ih h.2)

private theorem occurrences_skip (skip pos : Nat) (xs : List α) :
    occurrences tests skip pos xs = occurrences tests 0 (pos + skip) (xs.drop skip) := by
  induction xs generalizing skip pos with
  | nil => simp [occurrences]
  | cons x xs ih =>
    cases skip with
    | zero => rfl
    | succ skip =>
      rw [occurrences, ih, List.drop_succ_cons]
      congr 1
      omega

/-- Where the list begins only moves the occurrences. -/
theorem occurrences_add (skip pos k : Nat) (xs : List α) :
    occurrences tests skip (k + pos) xs = (occurrences tests skip pos xs).map (k + ·) := by
  induction xs generalizing skip pos with
  | nil => simp [occurrences]
  | cons x xs ih =>
    cases skip with
    | succ skip => rw [occurrences, occurrences, Nat.add_assoc, ih]
    | zero =>
      simp only [occurrences, Nat.add_assoc]
      split
      · rw [List.map_cons, ih]
      · rw [ih]

/-- A first occurrence lies in the list. -/
theorem leftmost_le {xs : List α} {s : Nat} (h : leftmost tests xs = some s) :
    s + tests.length ≤ xs.length := by
  induction xs generalizing s with
  | nil => simp [leftmost] at h
  | cons x xs ih =>
    rw [leftmost] at h
    split at h
    · next hs =>
      obtain ⟨rfl⟩ := h
      rw [Nat.zero_add]
      exact length_le_of_startsWith hs
    · obtain ⟨s', hs', rfl⟩ := Option.map_eq_some_iff.mp h
      have := ih hs'
      rw [List.length_cons]
      omega

/-- The occurrences are the leftmost one and those behind it. -/
theorem occurrences_eq (ht : tests ≠ []) (pos : Nat) (xs : List α) :
    occurrences tests 0 pos xs =
      match leftmost tests xs with
      | none => []
      | some s => (pos + s) :: occurrences tests 0 (pos + s + tests.length)
          (xs.drop (s + tests.length)) := by
  have hlen : tests.length - 1 + 1 = tests.length :=
    Nat.sub_add_cancel (List.length_pos_iff.mpr ht)
  induction xs generalizing pos with
  | nil => rfl
  | cons x xs ih =>
    rw [occurrences, leftmost]
    split
    · next hs =>
      simp only [Nat.add_zero, Nat.zero_add]
      rw [occurrences_skip, ← hlen, List.drop_succ_cons]
      congr 2
      omega
    · rw [ih]
      cases hl : leftmost tests xs with
      | none => rfl
      | some s =>
        simp only [Option.map_some]
        rw [Nat.add_right_comm s 1, List.drop_succ_cons]
        congr 1
        · omega
        · congr 1
          omega

/-- Every occurrence lies in the list. -/
theorem mem_occurrences {skip pos : Nat} {xs : List α} {s : Nat}
    (h : s ∈ occurrences tests skip pos xs) :
    pos + skip ≤ s ∧ s + tests.length ≤ pos + xs.length := by
  induction xs generalizing skip pos with
  | nil => simp [occurrences] at h
  | cons x xs ih =>
    rw [List.length_cons]
    cases skip with
    | succ skip =>
      have := ih h
      omega
    | zero =>
      rw [occurrences] at h
      split at h
      · next hs =>
        have hl := length_le_of_startsWith hs
        rw [List.length_cons] at hl
        rcases List.mem_cons.mp h with rfl | h
        · omega
        · have := ih h
          omega
      · have := ih h
        omega

/-- The occurrences come in order and do not overlap. -/
theorem pairwise_occurrences (ht : tests ≠ []) (skip pos : Nat) (xs : List α) :
    (occurrences tests skip pos xs).Pairwise fun s s' ↦ s + tests.length ≤ s' := by
  have hpos := List.length_pos_iff.mpr ht
  induction xs generalizing skip pos with
  | nil => exact List.Pairwise.nil
  | cons x xs ih =>
    cases skip with
    | succ skip => exact ih skip (pos + 1)
    | zero =>
      rw [occurrences]
      split
      · refine List.pairwise_cons.mpr ⟨fun s hs ↦ ?_, ih _ _⟩
        have := (mem_occurrences hs).1
        omega
      · exact ih 0 (pos + 1)

/-! ## Greedy searches -/

/-- The list starts with elements that pass the tests, position by position. -/
theorem startsWith_iff {tests : List (α → Bool)} {xs : List α} :
    startsWith tests xs = true ↔
      ∀ (i : Nat) (t : α → Bool), tests[i]? = some t → ∃ x, xs[i]? = some x ∧ t x = true := by
  induction tests generalizing xs with
  | nil => simp [startsWith]
  | cons t ts ih =>
    cases xs with
    | nil =>
      simp only [startsWith, Bool.false_eq_true, false_iff, not_forall]
      exact ⟨0, t, rfl, by simp⟩
    | cons x xs =>
      rw [startsWith, Bool.and_eq_true, ih]
      constructor
      · rintro ⟨hx, h⟩ i u hi
        cases i with
        | zero =>
          obtain ⟨rfl⟩ := hi
          exact ⟨x, rfl, hx⟩
        | succ i => exact h i u hi
      · intro h
        obtain ⟨y, ⟨rfl⟩, hy⟩ := h 0 t rfl
        exact ⟨hy, fun i u hi ↦ h (i + 1) u hi⟩

/-- The starts a search from `lo` takes that repeatedly picks the first occurrence that is
not before the end of the last one, each of them `n` long. -/
inductive Greedy (occurs : Nat → Prop) (n : Nat) : Nat → List Nat → Prop where
  | done {lo : Nat} (none : ∀ s, lo ≤ s → ¬ occurs s) : Greedy occurs n lo []
  | next {lo s : Nat} {rest : List Nat} (le : lo ≤ s) (here : occurs s)
      (first : ∀ t, lo ≤ t → t < s → ¬ occurs t) (behind : Greedy occurs n (s + n) rest) :
      Greedy occurs n lo (s :: rest)

namespace Greedy

variable {occurs occurs' : Nat → Prop} {n lo : Nat} {starts starts' : List Nat}

/-- There is only one greedy search. -/
theorem unique (h : Greedy occurs n lo starts) (h' : Greedy occurs n lo starts') :
    starts = starts' := by
  induction h generalizing starts' with
  | done hnone =>
    cases h' with
    | done => rfl
    | next hle hhere => exact absurd hhere (hnone _ hle)
  | @next lo s rest hle hhere hfirst _ ih =>
    cases h' with
    | done hnone => exact absurd hhere (hnone _ hle)
    | @next _ s' rest' hle' hhere' hfirst' hbehind' =>
      obtain rfl : s = s' := by
        rcases Nat.lt_trichotomy s s' with hlt | heq | hlt
        · exact absurd hhere (hfirst' s hle hlt)
        · exact heq
        · exact absurd hhere' (hfirst s' hle' hlt)
      rw [ih hbehind']

/-- A greedy search takes occurrences. -/
theorem occurs_of_mem (h : Greedy occurs n lo starts) : ∀ s ∈ starts, occurs s := by
  induction h with
  | done => simp
  | next _ hhere _ _ ih => exact List.forall_mem_cons.mpr ⟨hhere, ih⟩

/-- With fewer occurrences the search is the same as long as all it takes are left. -/
theorem restrict (h : Greedy occurs n lo starts) (himp : ∀ s, lo ≤ s → occurs' s → occurs s)
    (hall : ∀ s ∈ starts, occurs' s) : Greedy occurs' n lo starts := by
  induction h with
  | done hnone => exact done fun s hle hs ↦ hnone s hle (himp s hle hs)
  | next hle _ hfirst _ ih =>
    obtain ⟨hs, hrest⟩ := List.forall_mem_cons.mp hall
    refine next hle hs (fun t ht hlt hc ↦ hfirst t ht hlt (himp t ht hc)) ?_
    exact ih (fun t ht ↦ himp t (by omega)) hrest

/-- A search among occurrences that end somewhere ends. -/
theorem exists_of_bounded (hn : 0 < n) (bound : Nat) (h : ∀ s, occurs s → s < bound) (lo : Nat) :
    ∃ starts, Greedy occurs n lo starts := by
  classical
  generalize hk : bound - lo = k
  induction k using Nat.strongRecOn generalizing lo with
  | _ k ih =>
    by_cases hex : ∃ s, lo ≤ s ∧ occurs s
    · have hmin := fun t ↦ Nat.find_min (m := t) hex
      obtain ⟨hle, hs⟩ := Nat.find_spec hex
      obtain ⟨rest, hrest⟩ := ih (bound - (Nat.find hex + n)) (by have := h _ hs; omega) _ rfl
      exact ⟨_, next hle hs (fun t h1 h2 h3 ↦ hmin t h2 ⟨h1, h3⟩) hrest⟩
    · exact ⟨[], done fun s hle hs ↦ hex ⟨s, hle, hs⟩⟩

end Greedy

private theorem not_startsWith_nil (ht : tests ≠ []) : startsWith tests ([] : List α) = false := by
  cases tests with
  | nil => exact absurd rfl ht
  | cons => rfl

/-- The occurrences behind an offset of a list are what a greedy search takes there. -/
theorem greedy_occurrences (ht : tests ≠ []) (xs : List α) (skip pos : Nat) :
    Greedy (fun s ↦ startsWith tests (xs.drop s) = true) tests.length (pos + skip)
      (occurrences tests skip pos (xs.drop pos)) := by
  have hlen : tests.length - 1 + 1 = tests.length :=
    Nat.sub_add_cancel (List.length_pos_iff.mpr ht)
  -- the induction is on what is left of the list behind `pos`
  generalize hk : xs.length - pos = k
  induction k generalizing skip pos with
  | zero =>
    rw [List.drop_eq_nil_of_le (by omega)]
    simp only [occurrences]
    refine .done fun s hs ↦ ?_
    rw [List.drop_eq_nil_of_le (by omega), not_startsWith_nil ht]
    exact Bool.false_ne_true
  | succ k ih =>
    have hpos : pos < xs.length := by omega
    have hcons := List.drop_eq_getElem_cons hpos
    cases skip with
    | succ skip =>
      rw [hcons, occurrences, Nat.add_comm skip, ← Nat.add_assoc]
      exact ih skip (pos + 1) (by omega)
    | zero =>
      rw [Nat.add_zero, hcons, occurrences, ← hcons]
      split
      · next hs =>
        refine .next (Nat.le_refl _) hs (fun t h1 h2 ↦ by omega) ?_
        have := ih (tests.length - 1) (pos + 1) (by omega)
        rwa [Nat.add_assoc, Nat.add_comm 1, hlen] at this
      · next hs =>
        have hrest := ih 0 (pos + 1) (by omega)
        generalize occurrences tests 0 (pos + 1) (xs.drop (pos + 1)) = starts at hrest
        cases hrest with
        | done hnone =>
          refine .done fun s hle ↦ ?_
          rcases Nat.eq_or_lt_of_le hle with rfl | hlt
          · exact hs
          · exact hnone s hlt
        | next hle hhere hfirst hbehind =>
          refine .next (by omega) hhere (fun t h1 h2 ↦ ?_) hbehind
          rcases Nat.eq_or_lt_of_le h1 with rfl | hlt
          · exact hs
          · exact hfirst t hlt h2

end Tofu.Matching
