import Tofu.Buffer.CurrentBuffer
import Tofu.Selection.Coverage

/-!
# The ranges to redraw

`CurrentBuffer::map_selections`, `src/src/current_buffer.rs:159–185`, reports the intervals
of the old regions and of those the closure returned, sorted by their starts and joined
where the next one starts inside the last. The interval of a region that reaches the last
offset of the address space ends before it.
-/

namespace Tofu

open Rope Selection

variable {X : XiRope UInt8}

/-! ## Intervals -/

/-- The offset lies in one of the intervals. -/
def Reported (intervals : List Interval) (x : Nat) : Prop := ∃ i ∈ intervals, i.contains x = true

instance (intervals : List Interval) (x : Nat) : Decidable (Reported intervals x) :=
  inferInstanceAs (Decidable (∃ i ∈ intervals, i.contains x = true))

section Reported

variable {i : Interval} {l l' : List Interval} {x : Nat}

/-- An interval contains its start and not its end. -/
theorem Interval.contains_iff : i.contains x = true ↔ i.start ≤ x ∧ x < i.stop := by
  simp [contains]

/-- Nothing is reported by no intervals. -/
@[simp] theorem not_reported_nil : ¬ Reported [] x := by simp [Reported]

/-- An offset is in the first interval or in another one. -/
@[simp] theorem reported_cons : Reported (i :: l) x ↔ i.contains x = true ∨ Reported l x := by
  simp [Reported]

/-- An offset is reported by either of two lists. -/
@[simp] theorem reported_append : Reported (l ++ l') x ↔ Reported l x ∨ Reported l' x := by
  simp only [Reported, List.mem_append, or_and_right, exists_or]

private theorem reported_congr (h : ∀ i, i ∈ l ↔ i ∈ l') : Reported l x ↔ Reported l' x := by
  simp only [Reported, h]

private theorem Interval.contains_union {j : Interval} (h : i.contains j.start = true) :
    (i.union j).contains x = true ↔ i.contains x = true ∨ j.contains x = true := by
  rw [contains_iff] at h
  unfold union isEmpty
  split
  · next he =>
    simp only [decide_eq_true_eq] at he
    omega
  · split
    · next he =>
      simp only [decide_eq_true_eq] at he
      simp only [contains_iff]
      omega
    · simp only [contains_iff]
      omega

/-- Joining ranges loses and adds no offset. -/
theorem reported_joinRanges (disjoint ranges : List Interval) :
    Reported (joinRanges disjoint ranges) x ↔ Reported disjoint x ∨ Reported ranges x := by
  fun_induction joinRanges disjoint ranges with
  | case1 disjoint => simp
  | case2 r ranges ih =>
    rw [ih]
    simp
  | case3 last disjoint r ranges h ih =>
    simp only [ih, reported_cons, Interval.contains_union h, or_assoc, or_left_comm]
  | case4 last disjoint r ranges h ih =>
    simp only [ih, reported_cons, or_assoc, or_left_comm]

/-- The interval of a region contains its offsets, the last of a word apart. -/
theorem SelRegion.contains_interval {r : SelRegion} (hx : x < 2 ^ 64 - 1) :
    r.interval.contains x = true ↔ r.min ≤ x ∧ x ≤ r.max := by
  simp only [Interval.contains_iff, SelRegion.interval, usizeSaturatingAdd]
  omega

/-- The intervals of regions report what the regions cover. -/
theorem reported_map_interval {regions : List SelRegion} (hx : x < 2 ^ 64 - 1) :
    Reported (regions.map SelRegion.interval) x ↔ Covered regions x := by
  simp only [Reported, Covered, List.mem_map, exists_exists_and_eq_and,
    SelRegion.contains_interval hx]

end Reported

/-! ## The sweep -/

/-- Intervals from left to right without an overlap, none of them empty. -/
structure Apart (intervals : List Interval) : Prop where
  ordered : intervals.Pairwise fun i j ↦ i.stop ≤ j.start
  nonempty : ∀ i ∈ intervals, i.start < i.stop

-- The ranges joined so far, in reverse, and those to come.
private structure Sweeping (disjoint ranges : List Interval) : Prop where
  ordered : disjoint.Pairwise fun i j ↦ j.stop ≤ i.start
  nonempty : ∀ i ∈ disjoint, i.start < i.stop
  head : ∀ last ∈ disjoint.head?, ∀ r ∈ ranges, last.start ≤ r.start
  sorted : ranges.Pairwise fun i j ↦ i.start ≤ j.start
  rest_nonempty : ∀ r ∈ ranges, r.start < r.stop

/-- The union of a range with one that starts in it starts where the first one does. -/
theorem union_eq {i j : Interval} (hi : i.start < i.stop) (hj : j.start < j.stop)
    (h : i.start ≤ j.start) : i.union j = { start := i.start, stop := max i.stop j.stop } := by
  have hi' : i.isEmpty = false := decide_eq_false (Nat.not_le.mpr hi)
  have hj' : j.isEmpty = false := decide_eq_false (Nat.not_le.mpr hj)
  rw [Interval.union, hi', hj', Nat.min_eq_left h]
  rfl

private theorem Sweeping.open {r : Interval} {ranges : List Interval}
    (h : Sweeping [] (r :: ranges)) : Sweeping [r] ranges := by
  obtain ⟨hr, hsorted⟩ := List.pairwise_cons.mp h.sorted
  obtain ⟨hne, hrest⟩ := List.forall_mem_cons.mp h.rest_nonempty
  exact ⟨List.pairwise_singleton _ _, by simpa using hne, by simpa using hr, hsorted, hrest⟩

private theorem Sweeping.join {last r : Interval} {disjoint ranges : List Interval}
    (h : Sweeping (last :: disjoint) (r :: ranges)) :
    Sweeping (last.union r :: disjoint) ranges := by
  obtain ⟨hr, hsorted⟩ := List.pairwise_cons.mp h.sorted
  obtain ⟨hne, hrest⟩ := List.forall_mem_cons.mp h.rest_nonempty
  obtain ⟨hlast, hdisjoint⟩ := List.forall_mem_cons.mp h.nonempty
  obtain ⟨hbefore, hordered⟩ := List.pairwise_cons.mp h.ordered
  have hle : ∀ r' ∈ r :: ranges, last.start ≤ r'.start := h.head last rfl
  rw [union_eq hlast hne (hle r List.mem_cons_self)]
  refine ⟨List.pairwise_cons.mpr ⟨hbefore, hordered⟩,
    List.forall_mem_cons.mpr ⟨Nat.lt_of_lt_of_le hlast (Nat.le_max_left _ _), hdisjoint⟩,
    ?_, hsorted, hrest⟩
  intro last' hlast' r' hr'
  cases hlast'
  exact hle r' (List.mem_cons_of_mem _ hr')

private theorem Sweeping.push {last r : Interval} {disjoint ranges : List Interval}
    (h : Sweeping (last :: disjoint) (r :: ranges)) (hout : ¬ last.contains r.start = true) :
    Sweeping (r :: last :: disjoint) ranges := by
  obtain ⟨hr, hsorted⟩ := List.pairwise_cons.mp h.sorted
  obtain ⟨hne, hrest⟩ := List.forall_mem_cons.mp h.rest_nonempty
  obtain ⟨hbefore, -⟩ := List.pairwise_cons.mp h.ordered
  have hle : last.start ≤ r.start := h.head last rfl r List.mem_cons_self
  -- a range that starts at or behind the start of the last one and not in it is behind it
  have hstop : last.stop ≤ r.start := by
    rw [Interval.contains_iff] at hout
    omega
  refine ⟨List.pairwise_cons.mpr ⟨?_, h.ordered⟩, List.forall_mem_cons.mpr ⟨hne, h.nonempty⟩, ?_,
    hsorted, hrest⟩
  · intro i hi
    rcases List.mem_cons.mp hi with rfl | hi
    · exact hstop
    · have hlast := h.nonempty last List.mem_cons_self
      have hi' := hbefore i hi
      omega
  · intro last' hlast' r' hr'
    cases hlast'
    exact hr r' hr'

private theorem Sweeping.joinRanges {disjoint ranges : List Interval}
    (h : Sweeping disjoint ranges) : Sweeping (joinRanges disjoint ranges) [] := by
  fun_induction Tofu.joinRanges disjoint ranges with
  | case1 disjoint => exact h
  | case2 r ranges ih => exact ih h.open
  | case3 last disjoint r ranges _ ih => exact ih h.join
  | case4 last disjoint r ranges hout ih => exact ih (h.push hout)

/-- Joining sorted ranges leaves them apart. -/
theorem apart_joinRanges {ranges : List Interval}
    (hs : ranges.Pairwise fun i j ↦ i.start ≤ j.start) (hne : ∀ r ∈ ranges, r.start < r.stop) :
    Apart (joinRanges [] ranges).reverse := by
  have hsweep : Sweeping (joinRanges [] ranges) [] :=
    Sweeping.joinRanges ⟨List.Pairwise.nil, by simp, by simp, hs, hne⟩
  exact ⟨List.pairwise_reverse.mpr hsweep.ordered,
    fun i hi ↦ hsweep.nonempty i (List.mem_reverse.mp hi)⟩

/-- Sorted intervals, no two of which share an offset and none of which is empty, over exactly the
offsets of a set. -/
structure ExactCover (intervals : List Interval) (offsets : Nat → Prop) : Prop where
  sorted : intervals.Pairwise fun i j ↦ i.start ≤ j.start
  disjoint : intervals.Pairwise fun i j ↦ ∀ x, ¬ (i.contains x = true ∧ j.contains x = true)
  nonempty : ∀ i ∈ intervals, i.isEmpty = false
  covers : ∀ x, Reported intervals x ↔ offsets x

private theorem Apart.exactCover {intervals : List Interval} {offsets : Nat → Prop}
    (h : Apart intervals)
    (hcovers : ∀ x, Reported intervals x ↔ offsets x) : ExactCover intervals offsets := by
  constructor
  case sorted =>
    apply h.ordered.imp_of_mem
    intro i j hi _ hij
    have hne := h.nonempty i hi
    omega
  case disjoint =>
    apply h.ordered.imp
    intro i j hij x
    rw [Interval.contains_iff, Interval.contains_iff]
    omega
  case nonempty => exact fun i hi ↦ decide_eq_false (Nat.not_le.mpr (h.nonempty i hi))
  case covers => exact hcovers

/-! ## What is reported -/

namespace CurrentBuffer

/-- The ranges recorded on the way are those of the regions and of what the closure returns. -/
theorem mem_recording {σ : Type} {f : σ → SelRegion → Option (σ × List SelRegion)}
    {regions : List SelRegion} {s s' : σ} {ranges ranges' : List Interval}
    {outputs : List (List SelRegion)}
    (h : collect (fun (s, ranges) region ↦ (f s region).map fun (s, new) ↦
      ((s, ranges ++ region.interval :: new.map SelRegion.interval), new)) regions (s, ranges) =
        some ((s', ranges'), outputs)) :
    collect f regions s = some (s', outputs) ∧
      ∀ i, i ∈ ranges' ↔ i ∈ ranges ++ (regions ++ outputs.flatten).map SelRegion.interval := by
  induction regions generalizing s ranges outputs with
  | nil =>
    obtain ⟨⟨rfl, rfl⟩, rfl⟩ := h
    exact ⟨rfl, by simp⟩
  | cons region regions ih =>
    obtain ⟨⟨⟨s₁, ranges₁⟩, new⟩, hf, hrest⟩ := Option.bind_eq_some_iff.mp h
    obtain ⟨⟨s₂, new'⟩, hnew, heq⟩ := Option.map_eq_some_iff.mp hf
    obtain ⟨⟨⟨s₃, ranges₃⟩, outputs₃⟩, hc, hend⟩ := Option.bind_eq_some_iff.mp hrest
    cases heq
    cases hend
    obtain ⟨hcollect, hmem⟩ := ih hc
    refine ⟨?_, fun i ↦ ?_⟩
    · simp only [collect, hnew, Option.bind_eq_bind, Option.bind_some, hcollect]
    · rw [hmem i]
      simp only [List.map_append, List.map_cons, List.flatten_cons, List.mem_append, List.mem_cons,
        or_assoc, or_left_comm]

/-- The intervals of a change in place are the joined ranges of the regions and of what the
closure returned. -/
theorem joined_of_mapSelections {σ : Type}
    {f : σ → SelRegion → Option (σ × List SelRegion)} {s : σ} {b b' : CurrentBuffer X}
    {dirty : DirtyBytes} (h : b.mapSelections f s = some (b', dirty)) :
    ∃ s' outputs ranges, collect f b.selection.regions s = some (s', outputs) ∧
      ofOutputs b.selection.mainSelection outputs = some b'.selection ∧ b'.data = b.data ∧
      (∀ i, i ∈ ranges ↔
        i ∈ (b.selection.regions ++ outputs.flatten).map SelRegion.interval) ∧
      (ranges.Pairwise fun i j ↦ i.start ≤ j.start) ∧
      dirty = .changeInPlace (joinRanges [] ranges).reverse := by
  obtain ⟨⟨⟨s', ranges⟩, sel⟩, hm, h⟩ := Option.bind_eq_some_iff.mp h
  cases h
  rw [Selection.mapSelections_eq] at hm
  obtain ⟨⟨⟨s₁, ranges₁⟩, outputs⟩, hc, hm⟩ := Option.bind_eq_some_iff.mp hm
  obtain ⟨sel₁, ho, heq⟩ := Option.map_eq_some_iff.mp hm
  cases heq
  obtain ⟨hcollect, hmem⟩ := mem_recording hc
  have htotal : Std.Total fun a b : Interval ↦ a.start ≤ b.start :=
    ⟨fun a b ↦ Nat.le_total a.start b.start⟩
  have htrans : IsTrans Interval fun a b ↦ a.start ≤ b.start :=
    ⟨fun _ _ _ hab hbc ↦ Nat.le_trans hab hbc⟩
  refine ⟨s', outputs, _, hcollect, ho, rfl, fun i ↦ ?_, List.pairwise_insertionSort _ ranges, rfl⟩
  rw [List.mem_insertionSort, hmem i, List.nil_append]

/-- `map_selections` reports exactly the old regions and what the closure returns. -/
theorem of_mapSelections {σ : Type} {f : σ → SelRegion → Option (σ × List SelRegion)} {s : σ}
    {b b' : CurrentBuffer X} {intervals : List Interval}
    (h : b.mapSelections f s = some (b', .changeInPlace intervals)) :
    ∃ s' outputs, collect f b.selection.regions s = some (s', outputs) ∧
      ofOutputs b.selection.mainSelection outputs = some b'.selection ∧ b'.data = b.data ∧
      ∀ x < 2 ^ 64 - 1, Reported intervals x ↔
        Covered b.selection.regions x ∨ Covered outputs.flatten x := by
  obtain ⟨s', outputs, ranges, hc, ho, hdata, hmem, -, hdirty⟩ := joined_of_mapSelections h
  cases hdirty
  refine ⟨s', outputs, hc, ho, hdata, fun x hx ↦ ?_⟩
  rw [reported_congr fun i ↦ List.mem_reverse, reported_joinRanges, reported_congr hmem,
    reported_map_interval hx, covered_append]
  simp

/-- The intervals to redraw are an exact cover of the old regions and of those the closure
returned exactly when none of them reaches the last offset of the address space. -/
theorem invalidated_exact_iff {σ : Type} {f : σ → SelRegion → Option (σ × List SelRegion)}
    {s s' : σ} {b b' : CurrentBuffer X} {dirty : DirtyBytes} {outputs : List (List SelRegion)}
    (h : b.mapSelections f s = some (b', dirty))
    (hc : collect f b.selection.regions s = some (s', outputs)) :
    (∃ intervals, dirty = .changeInPlace intervals ∧ ExactCover intervals fun x ↦
        Covered b.selection.regions x ∨ Covered outputs.flatten x) ↔
      ∀ r ∈ b.selection.regions ++ outputs.flatten, r.max < 2 ^ 64 - 1 := by
  obtain ⟨_, outputs', ranges, hc', -, -, hmem, hsorted, rfl⟩ := joined_of_mapSelections h
  cases hc.symm.trans hc'
  have hreported : ∀ x, Reported (joinRanges [] ranges).reverse x ↔
      Reported ((b.selection.regions ++ outputs.flatten).map SelRegion.interval) x := by
    intro x
    rw [reported_congr fun i ↦ List.mem_reverse, reported_joinRanges, reported_congr hmem]
    simp
  constructor
  · rintro ⟨_, ⟨rfl⟩, hcover⟩ r hr
    -- an interval ends at the last offset of the address space at most
    have hcov : Covered (b.selection.regions ++ outputs.flatten) r.max :=
      ⟨r, hr, r.min_le_max, Nat.le_refl _⟩
    obtain ⟨i, hi, hin⟩ := (hreported r.max).mp ((hcover.covers r.max).mpr (covered_append.mp hcov))
    obtain ⟨r', -, rfl⟩ := List.mem_map.mp hi
    rw [Interval.contains_iff] at hin
    have hstop : r'.interval.stop ≤ 2 ^ 64 - 1 := Nat.min_le_right _ _
    omega
  · intro hmax
    refine ⟨_, rfl, (apart_joinRanges hsorted fun i hi ↦ ?_).exactCover fun x ↦ ?_⟩
    · obtain ⟨r, hr, rfl⟩ := List.mem_map.mp ((hmem i).mp hi)
      have hlt := hmax r hr
      have hle := r.min_le_max
      simp only [SelRegion.interval, usizeSaturatingAdd]
      omega
    · rw [hreported x, ← covered_append]
      by_cases hx : x < 2 ^ 64 - 1
      · exact reported_map_interval hx
      · -- neither an interval nor a region goes on so far
        refine iff_of_false ?_ ?_
        · rintro ⟨i, hi, hin⟩
          obtain ⟨r, hr, rfl⟩ := List.mem_map.mp hi
          rw [Interval.contains_iff] at hin
          have hstop : r.interval.stop ≤ 2 ^ 64 - 1 := Nat.min_le_right _ _
          omega
        · rintro ⟨r, hr, -, hle⟩
          have hlt := hmax r hr
          omega

/-- A cursor that moves by two: the two ranges stay apart. -/
theorem invalidated_exact_two :
    let b : CurrentBuffer (XiRope.reference UInt8) := .default
    ∃ intervals, (b.mapSelections (pureClosure fun _ ↦ [SelRegion.new 2 2]) ()).map Prod.snd =
        some (.changeInPlace intervals) ∧
      ExactCover intervals fun x ↦
        Covered b.selection.regions x ∨ Covered [SelRegion.new 2 2] x := by
  intro b
  obtain ⟨intervals, hdirty, hcover⟩ := (@invalidated_exact_iff (XiRope.reference UInt8) Unit
    (pureClosure fun _ ↦ [SelRegion.new 2 2]) () () b _ _ [[SelRegion.new 2 2]] rfl rfl).mpr
    (by decide)
  exact ⟨intervals, congrArg some hdirty, hcover⟩

/-- The interval of a cursor at the last offset of the address space is empty. -/
theorem invalidated_last_offset :
    let b : CurrentBuffer (XiRope.reference UInt8) := .default
    (b.mapSelections (pureClosure fun _ ↦ [SelRegion.new (2 ^ 64 - 1) (2 ^ 64 - 1)]) ()).map
        Prod.snd =
      some (.changeInPlace [⟨0, 1⟩, ⟨2 ^ 64 - 1, 2 ^ 64 - 1⟩]) := by
  decide

end CurrentBuffer

end Tofu
