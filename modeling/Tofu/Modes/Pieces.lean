import Tofu.Modes.Closures
import Tofu.Selection.Coverage

/-!
# The pieces of a divided region

What the inner loop of `Split::apply_search` (`src/src/modes/split.rs:70–94`) leaves of a
region, offset by offset, and which way the pieces point that splitting and collapsing
make. The loop subtracts from offsets; `splitRegionChecked` is the loop with subtractions
that fail below zero.
-/

namespace Tofu

open SelRegion

/-! ## What is left between the matches -/

/-- No range takes the offset. -/
def Unmatched (ranges : List Interval) (y : Nat) : Prop :=
  ∀ x ∈ ranges, ¬ (x.start ≤ y ∧ y < x.stop)

instance (ranges : List Interval) (y : Nat) : Decidable (Unmatched ranges y) :=
  inferInstanceAs (Decidable (∀ x ∈ ranges, ¬ (x.start ≤ y ∧ y < x.stop)))

section Unmatched

variable {x : Interval} {ranges : List Interval} {y : Nat}

/-- No range takes nothing. -/
@[simp] theorem unmatched_nil : Unmatched [] y := by simp [Unmatched]

/-- An offset is outside the first range and outside the others. -/
@[simp] theorem unmatched_cons :
    Unmatched (x :: ranges) y ↔ ¬ (x.start ≤ y ∧ y < x.stop) ∧ Unmatched ranges y := by
  simp [Unmatched]

/-- Ranges do not take what lies before all of them. -/
theorem unmatched_of_lt {lo hi : Nat} (h : RangesIn lo hi ranges) (hy : y < lo) :
    Unmatched ranges y := by
  intro z hz hc
  have := h.within z hz
  omega

end Unmatched

/-- Regions that cover what ranges leave of a region, with a gap between any two. -/
structure IsRest (r : SelRegion) (ranges : List Interval) (out : List SelRegion) : Prop where
  covers : ∀ y, Covered out y ↔ (r.min ≤ y ∧ y ≤ r.max) ∧ Unmatched ranges y
  gaps : out.Pairwise fun s t ↦ s.max + 1 < t.min

/-- The part of a region before the first range, and what is left behind it. -/
theorem IsRest.cons {r : SelRegion} {left : Option SelRegion} {x : Interval}
    {ranges : List Interval} {out : List SelRegion} (h : RangesIn r.min r.max (x :: ranges))
    (hl : ∀ l ∈ left, l.min = r.min ∧ l.max = x.start - 1 ∧ r.min < x.start ∧ l.main = false)
    (hn : left = none → x.start = r.min)
    (hout : ∀ y, Covered out y ↔ (x.stop ≤ y ∧ y ≤ r.max) ∧ Unmatched ranges y)
    (hg : out.Pairwise fun s t ↦ s.max + 1 < t.min) :
    IsRest r (x :: ranges) (left.toList ++ out) := by
  have hx := h.within x List.mem_cons_self
  have hlow : ∀ y, y < x.stop → Unmatched ranges y := fun y ↦ unmatched_of_lt h.tail
  constructor
  · intro y
    have hleft : Covered left.toList y ↔ r.min ≤ y ∧ y < x.start := by
      cases left with
      | none =>
        have := hn rfl
        simp only [Option.toList_none, not_covered_nil, false_iff]
        omega
      | some l =>
        obtain ⟨h1, h2, h3, -⟩ := hl l rfl
        simp only [Option.toList_some, covered_cons, not_covered_nil, or_false]
        omega
    rw [covered_append, hleft, hout, unmatched_cons]
    by_cases hy : y < x.stop
    · have := hlow y hy
      simp only [this, and_true]
      omega
    · by_cases hu : Unmatched ranges y <;>
        simp only [hu, and_true, and_false, or_false, iff_false] <;> omega
  · refine List.pairwise_append.mpr ⟨by cases left <;> simp, hg, fun l hl' s hs ↦ ?_⟩
    obtain ⟨h1, h2, h3, -⟩ := hl l (Option.mem_toList.mp hl')
    have hs' := (hout s.min).mp ⟨s, hs, Nat.le_refl _, s.min_le_max⟩
    omega

/-- The loop over the matches of a region leaves what they do not take. -/
theorem isRest_splitRegion {r : SelRegion} {ranges : List Interval}
    (h : RangesIn r.min r.max ranges) : IsRest r ranges (splitRegion r ranges) := by
  apply splitRegion_induction (h := h)
  · intro r
    exact ⟨fun y ↦ by simp, by simp⟩
  · intro r x left h hstop _ hl hln
    have hrest : IsRest r [x] (left.toList ++ []) := by
      refine IsRest.cons h hl hln (fun y ↦ ?_) .nil
      simp only [not_covered_nil, unmatched_nil, and_true, false_iff]
      omega
    rwa [List.append_nil] at hrest
  · intro r x left right ranges out h _ hl hln hr ih
    obtain ⟨hmin, hmax, -⟩ := hr
    refine IsRest.cons h hl hln (fun y ↦ ?_) ih.gaps
    rw [ih.covers, hmin, hmax]

/-! ## Subtractions that fail below zero -/

/-- `SelRegion::split_at_region` with a checked subtraction. -/
def SelRegion.splitAtRegionChecked (r : SelRegion) (start stop : Nat) :
    Option (Option SelRegion × Option SelRegion) :=
  if start ≤ r.min then
    if r.max ≤ stop then some (none, none)
    else some (none, some ((new (stop + 1) r.max).inheritDirection r))
  else do
    let last ← checkedSub start 1
    if r.max ≤ stop then some (some ((new r.min last).inheritDirection r), none)
    else some (some (new r.min last), some (new (stop + 1) r.max))

/-- The loop over the ranges matched in one region with checked subtractions. -/
def splitRegionChecked : SelRegion → List Interval → Option (List SelRegion)
  | baseRegion, [] => some [baseRegion]
  | baseRegion, range :: ranges => do
    let last ← checkedSub range.stop 1
    let (left, right) ← baseRegion.splitAtRegionChecked range.start last
    match right with
    | some right => (splitRegionChecked right ranges).map (left.toList ++ ·)
    | none => some left.toList

private theorem SelRegion.splitAtRegionChecked_eq (r : SelRegion) (start stop : Nat) :
    r.splitAtRegionChecked start stop = some (r.splitAtRegion start stop) := by
  unfold splitAtRegionChecked splitAtRegion
  by_cases hs : start ≤ r.min
  · rw [if_pos hs, if_pos hs]
    split <;> rfl
  · rw [if_neg hs, if_neg hs, checkedSub_of_le (by omega)]
    simp only [Option.bind_eq_bind, Option.bind_some]
    split <;> rfl

/-- No subtraction of the loop goes below zero. -/
theorem splitRegionChecked_eq {r : SelRegion} {ranges : List Interval}
    (h : ∀ x ∈ ranges, x.start < x.stop) :
    splitRegionChecked r ranges = some (splitRegion r ranges) := by
  induction ranges generalizing r with
  | nil => rfl
  | cons x ranges ih =>
    obtain ⟨hx, hrest⟩ := List.forall_mem_cons.mp h
    rw [splitRegionChecked, checkedSub_of_le (by omega), Option.bind_eq_bind, Option.bind_some,
      splitAtRegionChecked_eq]
    simp only [splitRegion]
    rcases r.splitAtRegion x.start (x.stop - 1) with ⟨left, right⟩
    cases right with
    | none => simp
    | some right => simp [ih hrest]

/-- Splitting a region at ranges in it subtracts nothing below zero and leaves regions in
order, each with an offset of its own, that cover what the ranges do not take, each offset
once. -/
theorem split_keeps_unmatched {r : SelRegion} {ranges : List Interval}
    (h : RangesIn r.min r.max ranges) :
    splitRegionChecked r ranges = some (splitRegion r ranges) ∧
    (∀ s ∈ splitRegion r ranges, ∃ y, (s.min ≤ y ∧ y ≤ s.max) ∧ (r.min ≤ y ∧ y ≤ r.max) ∧
      ∀ x ∈ ranges, ¬ (x.start ≤ y ∧ y < x.stop)) ∧
    (splitRegion r ranges).Pairwise Before ∧
    ∀ y, Covered (splitRegion r ranges) y ↔
      (r.min ≤ y ∧ y ≤ r.max) ∧ ∀ x ∈ ranges, ¬ (x.start ≤ y ∧ y < x.stop) := by
  have hrest := isRest_splitRegion h
  refine ⟨splitRegionChecked_eq fun x hx ↦ (h.within x hx).2.1, fun s hs ↦ ?_,
    (isSplit_splitRegion h).sorted, hrest.covers⟩
  have hmin : s.min ≤ s.min ∧ s.min ≤ s.max := ⟨Nat.le_refl _, s.min_le_max⟩
  exact ⟨s.min, hmin, (hrest.covers s.min).mp ⟨s, hs, hmin⟩⟩

/-- Ranges one behind the other, at the start and at the end of a region. -/
theorem split_keeps_unmatched_six :
    (∃ out, splitRegionChecked (SelRegion.new 5 0) [⟨0, 1⟩, ⟨2, 3⟩, ⟨3, 4⟩, ⟨5, 6⟩] = some out ∧
      out.map (fun s ↦ (s.min, s.max)) = [(1, 1), (4, 4)]) ∧
    ∀ y, Covered (splitRegion (SelRegion.new 5 0) [⟨0, 1⟩, ⟨2, 3⟩, ⟨3, 4⟩, ⟨5, 6⟩]) y ↔
      (0 ≤ y ∧ y ≤ 5) ∧ ∀ x ∈ ([⟨0, 1⟩, ⟨2, 3⟩, ⟨3, 4⟩, ⟨5, 6⟩] : List Interval),
        ¬ (x.start ≤ y ∧ y < x.stop) :=
  ⟨⟨_, rfl, by decide⟩, (split_keeps_unmatched ⟨by decide, by decide⟩).2.2.2⟩

/-! ## The direction of the pieces -/

/-- The pieces longer than one offset point the way the region does. -/
def KeepsDirection (r : SelRegion) (out : List SelRegion) : Prop :=
  ∀ s ∈ out, s.min < s.max →
    (r.StrictForward → s.StrictForward) ∧ (r.StrictBackward → s.StrictBackward)

instance (r : SelRegion) (out : List SelRegion) : Decidable (KeepsDirection r out) :=
  inferInstanceAs (Decidable (∀ s ∈ out, _))

/-- Every range in `lo..=hi` with something unmatched before it reaches the end, or no two
offsets side by side are unmatched. -/
def StaysForward (lo hi : Nat) (ranges : List Interval) : Prop :=
  (∀ x ∈ ranges, x.stop = hi + 1 ∨ ∀ y < x.start, lo ≤ y → ¬ Unmatched ranges y) ∨
  ∀ y < hi, lo ≤ y → ¬ (Unmatched ranges y ∧ Unmatched ranges (y + 1))

instance (lo hi : Nat) (ranges : List Interval) : Decidable (StaysForward lo hi ranges) :=
  inferInstanceAs (Decidable (_ ∨ _))

section Direction

variable {r : SelRegion} {x : Interval} {ranges : List Interval}

private theorem strictForward_inheritDirection {s parent : SelRegion} (hp : parent.StrictForward)
    (hs : s.min < s.max) : (s.inheritDirection parent).StrictForward := by
  have hf : parent.forward = true := decide_eq_true (Nat.le_of_lt hp)
  rw [inheritDirection, if_pos hf]
  exact hs

private theorem inheritDirection_of_strictBackward {parent : SelRegion}
    (hp : parent.StrictBackward) (s : SelRegion) : s.inheritDirection parent = s.toBackward := by
  have hf : parent.forward = false := decide_eq_false (Nat.not_le.mpr hp)
  rw [inheritDirection, hf, if_neg Bool.false_ne_true]

private theorem strictBackward_inheritDirection {s parent : SelRegion}
    (hp : parent.StrictBackward) (hs : s.min < s.max) :
    (s.inheritDirection parent).StrictBackward := by
  rw [inheritDirection_of_strictBackward hp]
  exact hs

private theorem strictBackward_of_not {s : SelRegion} (hs : s.min < s.max)
    (h : ¬ s.StrictForward) : s.StrictBackward := by
  unfold StrictForward at h
  unfold SelRegion.min SelRegion.max at hs
  unfold StrictBackward
  omega

private theorem not_strictForward_inheritDirection {s parent : SelRegion}
    (hp : parent.StrictBackward) : ¬ (s.inheritDirection parent).StrictForward := by
  rw [inheritDirection_of_strictBackward hp]
  exact Nat.not_lt.mpr s.min_le_max

/-- The parts of a region that does not point forward do not either. -/
theorem not_strictForward_splitAtRegion (h : ¬ r.StrictForward)
    (hx : r.min ≤ x.start ∧ x.start < x.stop ∧ x.stop ≤ r.max + 1) :
    (∀ s ∈ (r.splitAtRegion x.start (x.stop - 1)).1, ¬ s.StrictForward) ∧
    ∀ s ∈ (r.splitAtRegion x.start (x.stop - 1)).2, ¬ s.StrictForward := by
  by_cases hc : r.min < r.max
  · have hb := strictBackward_of_not hc h
    unfold splitAtRegion
    by_cases hs : x.start ≤ r.min <;> by_cases he : r.max ≤ x.stop - 1 <;>
      simp only [hs, he, if_true, if_false, Option.mem_def, Option.some.injEq, reduceCtorEq,
        forall_eq', false_implies, implies_true, true_and, and_true]
    · exact not_strictForward_inheritDirection hb
    · exact not_strictForward_inheritDirection hb
    · simp only [StrictForward, SelRegion.new]
      omega
  · -- a range in a cursor takes all of it
    have hr := r.min_le_max
    rw [splitAtRegion, if_pos (by omega), if_pos (by omega)]
    simp

private theorem not_strictForward_splitRegion (h : ¬ r.StrictForward)
    (hr : RangesIn r.min r.max ranges) : ∀ s ∈ splitRegion r ranges, ¬ s.StrictForward := by
  revert h
  apply splitRegion_induction
    (motive := fun r _ out ↦ ¬ r.StrictForward → ∀ s ∈ out, ¬ s.StrictForward) (h := hr)
  · intro r h
    exact List.forall_mem_singleton.mpr h
  · intro r x left hr _ hp _ _ h
    have hdir := not_strictForward_splitAtRegion h (hr.within x List.mem_cons_self)
    rw [hp] at hdir
    exact fun s hs ↦ hdir.1 s (Option.mem_toList.mp hs)
  · intro r x left right ranges out hr hp _ _ _ ih h
    have hdir := not_strictForward_splitAtRegion h (hr.within x List.mem_cons_self)
    rw [hp] at hdir
    refine List.forall_mem_append.mpr ⟨fun s hs ↦ hdir.1 s (Option.mem_toList.mp hs), ?_⟩
    exact ih (hdir.2 right rfl)

/-- Regions that cover the rest are single offsets when no two offsets of it are side by
side. -/
theorem IsRest.forall_not_lt_iff {out : List SelRegion} (h : IsRest r ranges out) :
    (∀ s ∈ out, ¬ s.min < s.max) ↔
      ∀ y < r.max, r.min ≤ y → ¬ (Unmatched ranges y ∧ Unmatched ranges (y + 1)) := by
  constructor
  · rintro hsingle y hlt hle ⟨hy, hy'⟩
    obtain ⟨s, hs, hs1, hs2⟩ := (h.covers y).mpr ⟨⟨hle, Nat.le_of_lt hlt⟩, hy⟩
    obtain ⟨t, ht, ht1, ht2⟩ := (h.covers (y + 1)).mpr ⟨⟨by omega, hlt⟩, hy'⟩
    have h1 := hsingle s hs
    have h2 := hsingle t ht
    rcases eq_or_rel_of_pairwise h.gaps hs ht with rfl | hst | hts <;> omega
  · intro hno s hs hlt
    obtain ⟨hin, hy⟩ := (h.covers s.min).mp ⟨s, hs, Nat.le_refl _, s.min_le_max⟩
    obtain ⟨hin', hy'⟩ := (h.covers (s.min + 1)).mp ⟨s, hs, Nat.le_succ _, hlt⟩
    exact hno s.min (by omega) hin.1 ⟨hy, hy'⟩

/-- A range at the start only moves the start. -/
theorem staysForward_cons {hi : Nat} (hx : x.start < x.stop) :
    StaysForward x.start hi (x :: ranges) ↔ StaysForward x.stop hi ranges := by
  have hu : ∀ y, x.start ≤ y → (Unmatched (x :: ranges) y ↔ x.stop ≤ y ∧ Unmatched ranges y) := by
    intro y hy
    rw [unmatched_cons, and_congr_left_iff]
    intro _
    omega
  refine or_congr ?_ ?_
  · rw [List.forall_mem_cons]
    refine (and_iff_right (.inr fun y h1 h2 ↦ absurd h1 (by omega))).trans ?_
    refine forall₂_congr fun z _ ↦ or_congr_right (forall₂_congr fun y _ ↦ ?_)
    constructor
    · exact fun h h1 h2 ↦ h (by omega) ((hu y (by omega)).mpr ⟨h1, h2⟩)
    · exact fun h h1 h2 ↦ h ((hu y h1).mp h2).1 ((hu y h1).mp h2).2
  · refine forall₂_congr fun y _ ↦ ?_
    constructor
    · exact fun h h1 h2 ↦ h (by omega)
        ⟨(hu y (by omega)).mpr ⟨h1, h2.1⟩, (hu _ (by omega)).mpr ⟨by omega, h2.2⟩⟩
    · exact fun h h1 h2 ↦ h ((hu y h1).mp h2.1).1
        ⟨((hu y h1).mp h2.1).2, ((hu _ (by omega)).mp h2.2).2⟩

/-- A match with something on both sides turns what it leaves backward. -/
theorem strictForward_middle_iff (hr : RangesIn r.min r.max (x :: ranges))
    (h1 : r.min < x.start) (h2 : x.stop ≤ r.max) :
    (∀ s ∈ splitRegion r (x :: ranges), s.min < s.max → s.StrictForward) ↔
      StaysForward r.min r.max (x :: ranges) := by
  have hx := hr.within x List.mem_cons_self
  have hsplit : r.splitAtRegion x.start (x.stop - 1) =
      (some (new r.min (x.start - 1)), some (new x.stop r.max)) := by
    rw [splitAtRegion, if_neg (by omega), if_neg (by omega), Nat.sub_add_cancel (by omega)]
  have hback : ∀ s ∈ splitRegion r (x :: ranges), ¬ s.StrictForward := by
    simp only [splitRegion, hsplit]
    refine List.forall_mem_append.mpr ⟨?_, not_strictForward_splitRegion ?_ ?_⟩
    · simp only [Option.toList_some, List.forall_mem_singleton, StrictForward, SelRegion.new]
      omega
    · simp only [StrictForward, SelRegion.new]
      omega
    · rw [min_new, max_new, Nat.min_eq_left h2, Nat.max_eq_right h2]
      exact hr.tail
  have hfirst : ¬ ∀ z ∈ x :: ranges,
      z.stop = r.max + 1 ∨ ∀ y < z.start, r.min ≤ y → ¬ Unmatched (x :: ranges) y := by
    intro h
    rcases h x List.mem_cons_self with h | h
    · omega
    · refine h r.min h1 (Nat.le_refl _) (unmatched_cons.mpr ⟨by omega, ?_⟩)
      exact unmatched_of_lt hr.tail (by omega)
  rw [StaysForward, or_iff_right hfirst, ← (isRest_splitRegion hr).forall_not_lt_iff]
  exact forall₂_congr fun s hs ↦ imp_congr_right fun _ ↦ iff_of_false (hback s hs) id

/-- A split keeps a forward region forward exactly when it `StaysForward`. -/
theorem strictForward_splitRegion_iff (h : r.StrictForward) (hr : RangesIn r.min r.max ranges) :
    (∀ s ∈ splitRegion r ranges, s.min < s.max → s.StrictForward) ↔
      StaysForward r.min r.max ranges := by
  induction ranges generalizing r with
  | nil =>
    refine iff_of_true ?_ (.inl (by simp))
    simpa [splitRegion] using fun _ ↦ h
  | cons x ranges ih =>
    have hx := hr.within x List.mem_cons_self
    by_cases h1 : x.start = r.min
    · by_cases h2 : x.stop = r.max + 1
      · -- all of the region is matched
        obtain rfl := hr.tail_eq_nil h2
        refine iff_of_true ?_ (.inl (by simp [h2]))
        simp [splitRegion, splitAtRegion, h1, h2]
      · have hsplit : r.splitAtRegion x.start (x.stop - 1) =
            (none, some ((new x.stop r.max).inheritDirection r)) := by
          rw [splitAtRegion, if_pos (by omega), if_neg (by omega), Nat.sub_add_cancel (by omega)]
        obtain ⟨hmin, hmax, -⟩ := inheritDirection_bounds (new x.stop r.max) r
        rw [min_new, Nat.min_eq_left (by omega)] at hmin
        rw [max_new, Nat.max_eq_right (by omega)] at hmax
        have hright : RangesIn ((new x.stop r.max).inheritDirection r).min
            ((new x.stop r.max).inheritDirection r).max ranges := by
          rw [hmin, hmax]
          exact hr.tail
        simp only [splitRegion, hsplit, Option.toList_none, List.nil_append]
        rw [← h1, staysForward_cons hx.2.1]
        by_cases h3 : x.stop = r.max
        · -- what is left is a cursor
          refine iff_of_true (fun s hs hlt ↦ ?_) (.inr fun y h4 h5 ↦ by omega)
          have := (isSplit_splitRegion hright).inside s hs
          omega
        · have hfwd := strictForward_inheritDirection h (s := new x.stop r.max)
            (by rw [min_new, max_new]; omega)
          rw [ih hfwd hright, hmin, hmax]
    · by_cases h2 : x.stop = r.max + 1
      · obtain rfl := hr.tail_eq_nil h2
        refine iff_of_true ?_ (.inl (by simp [h2]))
        have hsplit : r.splitAtRegion x.start (x.stop - 1) =
            (some ((new r.min (x.start - 1)).inheritDirection r), none) := by
          rw [splitAtRegion, if_neg (by omega), if_pos (by omega)]
        simp only [splitRegion, hsplit, Option.toList_some, List.append_nil,
          List.forall_mem_singleton]
        intro hlt
        obtain ⟨hmin, hmax, -⟩ := inheritDirection_bounds (new r.min (x.start - 1)) r
        exact strictForward_inheritDirection h (by rwa [hmin, hmax] at hlt)
      · exact strictForward_middle_iff hr (by omega) (by omega)

/-- Splitting at ranges keeps the direction exactly when a forward region stays forward. -/
theorem keepsDirection_splitRegion_iff (hr : RangesIn r.min r.max ranges) :
    KeepsDirection r (splitRegion r ranges) ↔
      (r.StrictForward → StaysForward r.min r.max ranges) := by
  constructor
  · intro h hf
    exact (strictForward_splitRegion_iff hf hr).mp fun s hs hlt ↦ (h s hs hlt).1 hf
  · intro h s hs hlt
    refine ⟨fun hf ↦ (strictForward_splitRegion_iff hf hr).mpr (h hf) s hs hlt, fun hb ↦ ?_⟩
    exact strictBackward_of_not hlt (not_strictForward_splitRegion (Nat.lt_asymm hb) hr s hs)

private theorem keepsDirection_collapseRegion (r : SelRegion) (ranges : List Interval) :
    KeepsDirection r (collapseRegion r ranges) := by
  intro s hs hlt
  obtain ⟨x, -, rfl⟩ := List.mem_map.mp hs
  obtain ⟨hmin, hmax, -⟩ := inheritDirection_bounds (new x.start (x.stop - 1)) r
  rw [hmin, hmax] at hlt
  exact ⟨fun h ↦ strictForward_inheritDirection h hlt,
    fun h ↦ strictBackward_inheritDirection h hlt⟩

private theorem keepsDirection_pieces (step : Nat) (r : SelRegion) :
    KeepsDirection r (Split.pieces step r) := by
  intro s hs hlt
  obtain ⟨k, -, rfl⟩ := List.mem_map.mp hs
  obtain ⟨hmin, hmax, -⟩ := bounds_withDirection
    (new (r.min + k * step) (min r.max (usizeSub (usizeAdd (r.min + k * step) step) 1))) r.backward
  simp only [hmin, hmax] at hlt
  constructor
  · intro h
    have hb : r.backward = false := decide_eq_false (Nat.not_le.mpr h)
    rw [withDirection, hb]
    exact hlt
  · intro h
    have hb : r.backward = true := decide_eq_true (Nat.le_of_lt h)
    rw [withDirection, hb]
    exact hlt

end Direction

/-- The ways to divide a region: `Split` at a pattern, at nulls and by width, and `Collapse`. -/
inductive Division where
  | pattern (p : Pattern)
  | nulls (count : Nat)
  | width (step : Nat)
  | collapse (p : Pattern)
  deriving DecidableEq, Repr

namespace Division

/-- The pattern that is searched for. -/
def searched : Division → Pattern
  | .pattern p | .collapse p => p
  | .nulls count => { pieces := List.replicate count (.literal 0) }
  | .width _ => { pieces := [] }

/-- The regions that one region becomes. -/
def pieces (data : List UInt8) (r : SelRegion) : Division → List SelRegion
  | .width step => Split.pieces step r
  | .collapse p => collapseRegion r (p.matchesIn data r)
  | d => splitRegion r (d.searched.matchesIn data r)

/-- The region is divided: an empty pattern leaves the mode at once. -/
def Divides : Division → Prop
  | .width step => step ≠ 0
  | d => d.searched.pieces ≠ []

instance (d : Division) : Decidable d.Divides :=
  match d with
  | .width step => inferInstanceAs (Decidable (step ≠ 0))
  | .pattern p | .collapse p => inferInstanceAs (Decidable (p.pieces ≠ []))
  | .nulls count => inferInstanceAs (Decidable (List.replicate count _ ≠ []))

/-- The matches are the only ones to cut a region. -/
def Cuts : Division → Prop
  | .pattern _ | .nulls _ => True
  | .width _ | .collapse _ => False

instance (d : Division) : Decidable d.Cuts :=
  match d with
  | .pattern _ | .nulls _ => inferInstanceAs (Decidable True)
  | .width _ | .collapse _ => inferInstanceAs (Decidable False)

/-- Dividing a region keeps the direction of what is longer than one offset, except that a
forward region split at matches has to stay forward. -/
theorem keepsDirection_iff {d : Division} (hd : d.Divides) (data : List UInt8) (r : SelRegion) :
    KeepsDirection r (d.pieces data r) ↔
      (d.Cuts → r.StrictForward → StaysForward r.min r.max (d.searched.matchesIn data r)) := by
  cases d with
  | pattern p =>
    simp only [Cuts, true_implies]
    exact keepsDirection_splitRegion_iff (p.rangesIn_matchesIn hd data r)
  | nulls count =>
    simp only [Cuts, true_implies]
    exact keepsDirection_splitRegion_iff (Pattern.rangesIn_matchesIn hd data r)
  | width step => exact iff_of_true (keepsDirection_pieces step r) (by simp [Cuts])
  | collapse p =>
    exact iff_of_true (keepsDirection_collapseRegion r _) (by simp [Cuts])

/-- A forward region of three bytes split at its first byte stays forward. -/
theorem keepsDirection_first :
    KeepsDirection (SelRegion.new 2 0)
      ((pattern { pieces := [.literal 1] }).pieces [1, 2, 3] (SelRegion.new 2 0)) :=
  (keepsDirection_iff (by decide) _ _).mpr (by decide)

/-- A forward region of five bytes split at its middle byte becomes two backward regions. -/
theorem direction_lost_at_middle :
    (SelRegion.new 4 0).StrictForward ∧
    (pattern { pieces := [.literal 0] }).pieces [1, 1, 0, 1, 1] (SelRegion.new 4 0) =
      [SelRegion.new 0 1, SelRegion.new 3 4] ∧
    ¬ KeepsDirection (SelRegion.new 4 0)
      ((pattern { pieces := [.literal 0] }).pieces [1, 1, 0, 1, 1] (SelRegion.new 4 0)) := by
  decide

end Division

end Tofu
