import Tofu.Base.BinarySearch
import Tofu.Selection.Selection

/-!
# The regions in a range

`Selection::search` and `regions_in_range`, `src/src/selection.rs:70–86`, by which the view
finds the regions that it shows. A range may end before it starts, and then the slice of
the regions may be reversed. The lookup is written down for any binary search and, for
sorted regions, with what every one of them finds.
-/

namespace Tofu

/-- `binary_search_by(|r| r.max().cmp(&offset)).unwrap_or_else(identity)` on sorted regions: the
first one that reaches the offset. -/
def firstReaching (regions : List SelRegion) (offset : Nat) : Nat :=
  regions.findIdx fun r ↦ decide (offset ≤ r.max)

/-- `&regions[first..last]`, with the last region taken in if it starts by `stop`. -/
def sliceInRange (regions : List SelRegion) (first last stop : Nat) : Option (List SelRegion) :=
  let last := if regions[last]?.any fun r ↦ decide (r.min ≤ stop) then last + 1 else last
  if first ≤ last then some ((regions.take last).drop first) else none

namespace Selection

/-- `selection.rs:70–77`. -/
def search (sel : Selection) (offset : Nat) : Option Nat := do
  let last ← sel.regions.getLast?
  some (if offset > last.max then sel.regions.length else firstReaching sel.regions offset)

/-- `selection.rs:79–86`. -/
def regionsInRange (sel : Selection) (start stop : Nat) : Option (List SelRegion) := do
  let first ← sel.search start
  let last ← sel.search stop
  sliceInRange sel.regions first last stop

/-- `selection.rs:70–77`, for any search of the slice. -/
def searchWith (B : BinarySearch SelRegion) (sel : Selection) (offset : Nat) : Option Nat := do
  let last ← sel.regions.getLast?
  some (if offset > last.max then sel.regions.length
    else B.index sel.regions fun r ↦ compare r.max offset)

/-- `selection.rs:79–86`, for any search of the slice. -/
def regionsInRangeWith (B : BinarySearch SelRegion) (sel : Selection) (start stop : Nat) :
    Option (List SelRegion) := do
  let first ← sel.searchWith B start
  let last ← sel.searchWith B stop
  sliceInRange sel.regions first last stop

end Selection

section

variable {r : SelRegion} {regions : List SelRegion} {start stop : Nat}

private theorem firstReaching_cons_of_le (h : start ≤ r.max) :
    firstReaching (r :: regions) start = 0 := by
  rw [firstReaching, List.findIdx_cons, decide_eq_true h]
  rfl

private theorem firstReaching_cons_of_lt (h : r.max < start) :
    firstReaching (r :: regions) start = firstReaching regions start + 1 := by
  rw [firstReaching, List.findIdx_cons, decide_eq_false (Nat.not_le.mpr h)]
  rfl

private theorem Selection.search_eq {sel : Selection} (hv : sel.Valid) (offset : Nat) :
    sel.search offset = some (firstReaching sel.regions offset) := by
  obtain ⟨init, last, hr⟩ : ∃ init last, sel.regions = init ++ [last] :=
    ⟨_, _, (List.dropLast_append_getLast hv.nonempty).symm⟩
  have hsorted := hv.sorted
  rw [hr, List.pairwise_append] at hsorted
  rw [search, hr, List.getLast?_concat, Option.bind_eq_bind, Option.bind_some,
    Option.some.injEq]
  split
  · next hgt =>
    -- no region reaches beyond the last one
    refine (List.findIdx_eq_length.mpr fun r hmem ↦ decide_eq_false (Nat.not_le.mpr ?_)).symm
    rcases List.mem_append.mp hmem with hinit | hlast
    · have hbefore : r.max < last.min := hsorted.2.2 r hinit last (List.mem_singleton_self _)
      have hle := last.min_le_max
      omega
    · rw [List.mem_singleton.mp hlast]
      exact hgt
  · rfl

/-- Of sorted regions, those that begin by an offset are the ones before the first that reaches
it, and that one if it begins in time. -/
theorem take_firstReaching (hs : regions.Pairwise Before) :
    regions.take (if regions[firstReaching regions stop]?.any fun r ↦ decide (r.min ≤ stop) then
        firstReaching regions stop + 1 else firstReaching regions stop) =
      regions.filter fun r ↦ decide (r.min ≤ stop) := by
  induction regions with
  | nil => simp
  | cons r regions ih =>
    obtain ⟨hhead, htail⟩ := List.pairwise_cons.mp hs
    have hle := r.min_le_max
    rcases Nat.lt_or_ge r.max stop with hlt | hge
    · rw [firstReaching_cons_of_lt hlt, List.getElem?_cons_succ,
        List.filter_cons_of_pos (by simp; omega), ← ih htail]
      split <;> rfl
    · have hrest : regions.filter (fun r ↦ decide (r.min ≤ stop)) = [] := by
        refine List.filter_eq_nil_iff.mpr fun r' hr' ↦ ?_
        have hbefore : r.max < r'.min := hhead r' hr'
        simp only [decide_eq_true_eq]
        omega
      rw [firstReaching_cons_of_le hge, List.filter_cons, hrest]
      simp only [List.getElem?_cons_zero, Option.any_some, decide_eq_true_eq]
      split <;> rfl

private theorem firstReaching_eq_zero_iff (hs : regions.Pairwise Before) :
    firstReaching regions start = 0 ↔ ∀ r ∈ regions, start ≤ r.max := by
  cases regions with
  | nil => simp [firstReaching]
  | cons r regions =>
    rcases Nat.lt_or_ge r.max start with hlt | hge
    · rw [firstReaching_cons_of_lt hlt]
      exact iff_of_false (Nat.succ_ne_zero _) fun h ↦
        Nat.not_le.mpr hlt (h r (List.mem_cons_self ..))
    · rw [firstReaching_cons_of_le hge]
      refine iff_of_true rfl fun r' hr' ↦ ?_
      rcases List.mem_cons.mp hr' with rfl | hmem
      · exact hge
      · have hbefore : r.max < r'.min := (List.pairwise_cons.mp hs).1 r' hmem
        have hle := r'.min_le_max
        omega

/-- A range that starts behind the first region and ends in or before it is empty, or reversed
when a region lies between. -/
theorem sliceInRange_cons_between (hs : (r :: regions).Pairwise Before)
    (hlt : r.max < start) (hge : stop ≤ r.max) :
    sliceInRange (r :: regions) (firstReaching regions start + 1) 0 stop =
      if ∃ r' ∈ r :: regions, stop < r'.min ∧ r'.max < start then none else some [] := by
  obtain ⟨hhead, htail⟩ := List.pairwise_cons.mp hs
  have hle := r.min_le_max
  have hbad : (∃ r' ∈ r :: regions, stop < r'.min ∧ r'.max < start) ↔
      stop < r.min ∨ firstReaching regions start ≠ 0 := by
    rw [Ne, firstReaching_eq_zero_iff htail, List.exists_mem_cons_iff]
    push Not
    refine or_congr (and_iff_left hlt) (exists_congr fun r' ↦ and_congr_right fun hr' ↦ ?_)
    have hbefore : r.max < r'.min := hhead r' hr'
    exact and_iff_right (by omega)
  simp only [sliceInRange, hbad, List.getElem?_cons_zero, Option.any_some, decide_eq_true_eq]
  by_cases hin : r.min ≤ stop
  · rw [if_pos hin]
    by_cases hzero : firstReaching regions start = 0
    · simp [hzero, hin]
    · rw [if_neg (by omega), if_pos (.inr hzero)]
  · rw [if_neg hin, if_neg (by omega), if_pos (.inl (by omega))]

/-- A region of the range reaches its start and begins by its end. The slice is reversed when
a region lies between the end and the start. -/
theorem sliceInRange_eq (hs : regions.Pairwise Before) (start stop : Nat) :
    sliceInRange regions (firstReaching regions start) (firstReaching regions stop) stop =
      if ∃ r ∈ regions, stop < r.min ∧ r.max < start then none
      else some (regions.filter fun r ↦ decide (start ≤ r.max ∧ r.min ≤ stop)) := by
  induction regions with
  | nil => simp [sliceInRange, firstReaching]
  | cons r regions ih =>
    obtain ⟨hhead, htail⟩ := List.pairwise_cons.mp hs
    have hle := r.min_le_max
    rcases Nat.lt_or_ge r.max start with hlt | hge
    · have hout : (r :: regions).filter (fun r ↦ decide (start ≤ r.max ∧ r.min ≤ stop)) =
          regions.filter fun r ↦ decide (start ≤ r.max ∧ r.min ≤ stop) :=
        List.filter_cons_of_neg (by simp; omega)
      rw [firstReaching_cons_of_lt hlt, hout]
      rcases Nat.lt_or_ge r.max stop with hlt' | hge'
      · have hbad : (∃ r' ∈ r :: regions, stop < r'.min ∧ r'.max < start) ↔
            ∃ r' ∈ regions, stop < r'.min ∧ r'.max < start := by
          rw [List.exists_mem_cons_iff]
          exact or_iff_right (by omega)
        simp only [hbad, ← ih htail, firstReaching_cons_of_lt hlt', sliceInRange,
          List.getElem?_cons_succ]
        split <;> simp
      · have hnone : regions.filter (fun r ↦ decide (start ≤ r.max ∧ r.min ≤ stop)) = [] := by
          refine List.filter_eq_nil_iff.mpr fun r' hr' ↦ ?_
          have hbefore : r.max < r'.min := hhead r' hr'
          simp only [decide_eq_true_eq]
          omega
        rw [hnone, firstReaching_cons_of_le hge']
        exact sliceInRange_cons_between hs hlt hge'
    · have hreach : ∀ r' ∈ r :: regions, start ≤ r'.max :=
        (firstReaching_eq_zero_iff hs).mp (firstReaching_cons_of_le hge)
      have hgood : ¬ ∃ r' ∈ r :: regions, stop < r'.min ∧ r'.max < start :=
        fun ⟨r', hr', _, h⟩ ↦ Nat.not_le.mpr h (hreach r' hr')
      rw [if_neg hgood, firstReaching_cons_of_le hge, sliceInRange]
      simp only [Nat.zero_le, if_true, List.drop_zero, take_firstReaching hs]
      congr 1
      refine List.filter_congr fun r' hr' ↦ ?_
      simp [hreach r' hr']

/-- Of a valid selection the regions that touch the range are found, and the slice panics exactly
when a region lies between the end and the start of a reversed one. -/
theorem Selection.regionsInRange_eq {sel : Selection} (hv : sel.Valid) (start stop : Nat) :
    sel.regionsInRange start stop =
      if ∃ r ∈ sel.regions, stop < r.min ∧ r.max < start then none
      else some (sel.regions.filter fun r ↦ decide (start ≤ r.max ∧ r.min ≤ stop)) := by
  rw [regionsInRange, search_eq hv, search_eq hv, ← sliceInRange_eq hv.sorted]
  rfl

/-- Sorted regions have one place for an offset, which every search finds. -/
theorem index_eq_firstReaching (B : BinarySearch SelRegion) (hs : regions.Pairwise Before)
    (offset : Nat) :
    (B.index regions fun r ↦ compare r.max offset) = firstReaching regions offset := by
  have hreach : ∀ r : SelRegion, compare r.max offset ≠ .lt ↔ offset ≤ r.max := by
    intro r
    rw [Ne, Nat.compare_eq_lt, Nat.not_lt]
  rw [B.index_eq_findIdx, firstReaching]
  · apply congrArg (List.findIdx · regions)
    ext r
    rw [decide_eq_decide.mpr (hreach r)]
  · apply hs.imp
    intro a b hab ha
    have hbefore : a.max < b.min := hab
    have hle := b.min_le_max
    rw [hreach] at ha
    rw [Nat.compare_eq_gt]
    omega

private theorem Selection.regionsInRangeWith_eq (B : BinarySearch SelRegion) {sel : Selection}
    (hv : sel.Valid) (start stop : Nat) :
    sel.regionsInRangeWith B start stop = sel.regionsInRange start stop := by
  have hsearch : ∀ offset, sel.searchWith B offset = sel.search offset := by
    intro offset
    rw [searchWith, search, index_eq_firstReaching B hv.sorted]
  rw [regionsInRangeWith, regionsInRange, hsearch, hsearch]

/-- The lookup of a range does not panic and finds the regions that reach its start and begin by
its end, in order. -/
theorem Selection.regionsInRangeWith_eq_filter (B : BinarySearch SelRegion) {sel : Selection}
    (hv : sel.Valid) {start stop : Nat} (h : start ≤ stop) :
    sel.regionsInRangeWith B start stop =
      some (sel.regions.filter fun r ↦ decide (start ≤ r.max ∧ r.min ≤ stop)) := by
  rw [regionsInRangeWith_eq B hv, regionsInRange_eq hv, if_neg]
  rintro ⟨r, -, hstop, hstart⟩
  have hle := r.min_le_max
  omega

/-- A range from inside one region to the gap behind the next. -/
theorem Selection.regionsInRangeWith_eq_filter_two :
    let sel : Selection :=
      { regions := [⟨2, 0, false⟩, ⟨4, 6, true⟩, ⟨9, 9, false⟩], mainSelection := 1 }
    sel.Valid ∧ sel.regionsInRangeWith (.reference SelRegion) 1 8 =
      some (sel.regions.filter fun r ↦ decide (1 ≤ r.max ∧ r.min ≤ 8)) :=
  ⟨by decide, regionsInRangeWith_eq_filter (.reference SelRegion) (by decide) (by decide)⟩

/-- The main region is the only one flagged, so it is found unless it is filtered out. -/
theorem Selection.Valid.find?_isMain {sel : Selection} {main : SelRegion} (hv : sel.Valid)
    (hm : sel.main = some main) (p : SelRegion → Bool) :
    (sel.regions.filter p).find? SelRegion.isMain = if p main then some main else none := by
  have hmem : main ∈ sel.regions := List.mem_of_getElem? hm
  have hflag : main.isMain = true := (hv.main_iff _ _ hm).mpr rfl
  have honly : ∀ r ∈ sel.regions, r.isMain = true → r = main := by
    intro r hr hflag
    obtain ⟨k, hk⟩ := List.getElem?_of_mem hr
    rw [(hv.main_iff k r hk).mp hflag] at hk
    exact Option.some.inj (hk.symm.trans hm)
  cases hfound : (sel.regions.filter p).find? SelRegion.isMain with
  | none =>
    have hno := List.find?_eq_none.mp hfound
    rw [if_neg]
    exact fun hp ↦ hno main (List.mem_filter.mpr ⟨hmem, hp⟩) hflag
  | some r =>
    obtain ⟨hr, hp⟩ := List.mem_filter.mp (List.mem_of_find?_eq_some hfound)
    obtain rfl := honly r hr (List.find?_some hfound)
    rw [if_pos hp]

end

end Tofu
