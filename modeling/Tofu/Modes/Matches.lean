import Tofu.Modes.Search
import Tofu.Rope.Reference

/-!
# What a search leaves selected

The matches in a region are the occurrences of the pattern in its bytes. Splitting leaves
the stretches of a region between its matches and collapsing leaves the matches; both
come in order, so that assembling the new selection can only fail for want of a region
at or before the main one.
-/

namespace Tofu

open Rope Matching

variable {X : XiRope UInt8}

/-- A buffer with all of its bytes in one forward region. -/
def selectedAll (data : List UInt8) : CurrentBuffer (XiRope.reference UInt8) :=
  { CurrentBuffer.fromDataAndPath data none with
    selection :=
      { regions := [{ caret := data.length - 1, tail := 0, main := true }], mainSelection := 0 } }

/-! ## The matches in a region -/

namespace Pattern

/-- What the search asks of each byte: a wildcard takes every byte but a line feed. -/
def tests (p : Pattern) : List (UInt8 → Bool) :=
  p.pieces.map fun
    | .literal c => (· == c)
    | .wildcard => (· != 0x0A)

/-- A pattern with a wildcard needs an expression that can be built. -/
def Compiles (E : SearchEngine) (p : Pattern) : Prop :=
  p.asBasicSlice.isSome ∨ (E.build p.expr).isSome

instance (E : SearchEngine) (p : Pattern) : Decidable (p.Compiles E) :=
  inferInstanceAs (Decidable (_ ∨ _))

/-- The bytes of a region. -/
def slice (data : List UInt8) (r : SelRegion) : List UInt8 :=
  (data.drop r.min).take (r.max + 1 - r.min)

/-- The matches in a region. -/
def matchesIn (p : Pattern) (data : List UInt8) (r : SelRegion) : List Interval :=
  (occurrences p.tests 0 r.min (slice data r)).map fun s ↦
    { start := s, stop := s + p.pieces.length }

private theorem tests_of_asBasicSlice {p : Pattern} {needle : List UInt8}
    (h : p.asBasicSlice = some needle) :
    p.tests = needle.map (fun c x ↦ x == c) ∧ needle.length = p.pieces.length := by
  obtain ⟨pieces⟩ := p
  simp only [asBasicSlice, tests] at h ⊢
  induction pieces generalizing needle with
  | nil =>
    obtain ⟨rfl⟩ := h
    exact ⟨rfl, rfl⟩
  | cons piece pieces ih =>
    cases piece with
    | wildcard => simp at h
    | literal c =>
      simp only [List.mapM_cons, Option.bind_eq_bind, Option.bind_some, Option.pure_def] at h
      obtain ⟨rest, hr, ⟨rfl⟩⟩ := Option.bind_eq_some_iff.mp h
      obtain ⟨h1, h2⟩ := ih hr
      exact ⟨by rw [List.map_cons, List.map_cons, h1], by simp [h2]⟩

private theorem tests_expr (p : Pattern) : p.expr.map RegexPiece.matches = p.tests := by
  rw [expr, tests, List.map_map]
  refine List.map_congr_left fun piece _ ↦ ?_
  cases piece <;> rfl

/-- The loop of the literal search ends, and goes through the occurrences. -/
theorem literalMatches_eq (E : SearchEngine) {needle : List UInt8} (hn : needle ≠ [])
    (data : List UInt8) (fuel base sliceBase : Nat) (hs : sliceBase ≤ data.length)
    (hf : data.length - sliceBase < fuel) :
    literalMatches E needle data fuel base sliceBase =
      some ((occurrences (needle.map fun c x ↦ x == c) 0 base (data.drop sliceBase)).map
        fun s ↦ { start := s, stop := s + needle.length }) := by
  induction fuel generalizing base sliceBase with
  | zero => omega
  | succ fuel ih =>
    have hl : (needle.map fun c x ↦ x == c).length = needle.length := List.length_map _
    have hpos : 0 < needle.length := List.length_pos_iff.mpr hn
    rw [literalMatches, if_neg (by omega), E.find_eq _ _ hn,
      occurrences_eq (by simpa using hn) base]
    cases hm : leftmost (needle.map fun c x ↦ x == c) (data.drop sliceBase) with
    | none => rfl
    | some start =>
      have hle := leftmost_le hm
      rw [hl, List.length_drop] at hle
      simp only [hl]
      rw [ih _ _ (by omega) (by omega), Option.map_some, List.map_cons, List.drop_drop,
        Nat.add_assoc sliceBase]

private theorem sliceToCow_interval {data : List UInt8} {r : SelRegion}
    (hr : r.InBounds data.length) (hn : data.length < 2 ^ 63) :
    sliceToCow data r.interval = some (slice data r) := by
  have hmax := (SelRegion.inBounds_iff_max_le _ r).mp hr
  have hmin := r.min_le_max
  rw [sliceToCow, SelRegion.interval, usizeSaturatingAdd_of_lt (by omega),
    if_neg (by simp only; omega)]
  rfl

private theorem mapM_of_forall {f : SelRegion → Option (List Interval)}
    {g : SelRegion → List Interval} {l : List SelRegion} (h : ∀ r ∈ l, f r = some (g r)) :
    l.mapM f = some (l.map g) := by
  induction l with
  | nil => rfl
  | cons r l ih =>
    obtain ⟨hr, hl⟩ := List.forall_mem_cons.mp h
    rw [List.mapM_cons, hr, ih hl]
    rfl

/-- The search finds the matches of each region, unless its expression cannot be built. -/
theorem mapSelectionsToMatches_eq (E : SearchEngine) {p : Pattern} (hp : p.pieces ≠ [])
    {b : CurrentBuffer X} (hb : ∀ r ∈ b.selection.regions, r.InBounds b.data.length)
    (hn : b.data.length < 2 ^ 63) :
    p.mapSelectionsToMatches E b =
      if p.Compiles E then some (b.selection.regions.map (p.matchesIn b.data)) else none := by
  rw [mapSelectionsToMatches]
  cases hs : p.asBasicSlice with
  | some needle =>
    obtain ⟨ht, hl⟩ := tests_of_asBasicSlice hs
    have hne : needle ≠ [] := by
      rintro rfl
      exact hp (List.length_eq_zero_iff.mp hl.symm)
    rw [if_pos (.inl (by rw [hs]; rfl))]
    refine mapM_of_forall fun r hr ↦ ?_
    rw [sliceToCow_interval (hb r hr) hn, Option.bind_eq_bind, Option.bind_some,
      literalMatches_eq E hne _ _ _ _ (Nat.zero_le _) (by omega), matchesIn, ht, hl, List.drop_zero]
  | none =>
    cases hm : E.build p.expr with
    | none =>
      rw [if_neg (by simp [Compiles, hs, hm])]
      rfl
    | some matcher =>
      rw [if_pos (.inr (by rw [hm]; rfl))]
      refine mapM_of_forall fun r hr ↦ ?_
      have hne : p.expr ≠ [] := by simpa [expr] using hp
      have hl : p.expr.length = p.pieces.length := List.length_map _
      rw [sliceToCow_interval (hb r hr) hn, Option.bind_eq_bind, Option.bind_some,
        E.findIter_eq _ _ _ hne hm, tests_expr, hl, matchesIn, List.map_map]
      have hadd : occurrences p.tests 0 (r.min + 0) (slice b.data r) = _ :=
        occurrences_add 0 0 r.min (slice b.data r)
      rw [Nat.add_zero] at hadd
      rw [hadd, List.map_map]
      congr 2
      funext s
      simp only [Function.comp_apply, Nat.add_assoc]

end Pattern

/-! ## Splitting a region -/

/-- Ranges in order, each of them non-empty and in `lo..=hi`. -/
structure RangesIn (lo hi : Nat) (ranges : List Interval) : Prop where
  within : ∀ x ∈ ranges, lo ≤ x.start ∧ x.start < x.stop ∧ x.stop ≤ hi + 1
  ordered : ranges.Pairwise fun x y ↦ x.stop ≤ y.start

/-- The ranges behind the first one. -/
theorem RangesIn.tail {lo hi : Nat} {x : Interval} {ranges : List Interval}
    (h : RangesIn lo hi (x :: ranges)) : RangesIn x.stop hi ranges := by
  obtain ⟨hafter, hord⟩ := List.pairwise_cons.mp h.ordered
  refine ⟨fun y hy ↦ ?_, hord⟩
  have h1 := hafter y hy
  have h2 := h.within y (List.mem_cons_of_mem _ hy)
  omega

/-- Nothing comes behind a range that reaches the end. -/
theorem RangesIn.tail_eq_nil {lo hi : Nat} {x : Interval} {ranges : List Interval}
    (h : RangesIn lo hi (x :: ranges)) (hx : x.stop = hi + 1) : ranges = [] := by
  refine List.eq_nil_iff_forall_not_mem.mpr fun y hy ↦ ?_
  have := h.tail.within y hy
  omega

/-- The matches in a region are ranges in it. -/
theorem Pattern.rangesIn_matchesIn {p : Pattern} (hp : p.pieces ≠ []) (data : List UInt8)
    (r : SelRegion) : RangesIn r.min r.max (p.matchesIn data r) := by
  have hl : p.tests.length = p.pieces.length := List.length_map _
  have ht : p.tests ≠ [] := by simpa [tests] using hp
  have hpos : 0 < p.pieces.length := List.length_pos_iff.mpr hp
  have hr := r.min_le_max
  constructor
  · intro x hx
    obtain ⟨s, hs, rfl⟩ := List.mem_map.mp hx
    obtain ⟨h1, h2⟩ := mem_occurrences hs
    have h3 : (slice data r).length ≤ r.max + 1 - r.min := List.length_take_le _ _
    rw [hl] at h2
    exact ⟨by simp only; omega, by simp only; omega, by simp only; omega⟩
  · rw [matchesIn, List.pairwise_map]
    have := pairwise_occurrences ht 0 r.min (slice data r)
    rwa [hl] at this

/-- The number of bytes in ranges. -/
def rangesLen (ranges : List Interval) : Nat := (ranges.map fun x ↦ x.stop - x.start).sum

/-- What splitting a region at ranges in it leaves: regions in it and in order, together as
long as what the ranges do not take, and the region itself when there is no range. -/
structure IsSplit (r : SelRegion) (ranges : List Interval) (out : List SelRegion) : Prop where
  inside : ∀ s ∈ out, r.min ≤ s.min ∧ s.max ≤ r.max
  sorted : out.Pairwise Before
  length_add : (out.map SelRegion.len).sum + rangesLen ranges = r.len
  main : ∀ s ∈ out, s.main = true → r.main = true ∧ out = [s]

/-- The direction of the parent keeps the bounds, and clears the main flag. -/
theorem inheritDirection_bounds (r parent : SelRegion) :
    (r.inheritDirection parent).min = r.min ∧ (r.inheritDirection parent).max = r.max ∧
      (r.inheritDirection parent).main = false := by
  have := r.min_le_max
  unfold SelRegion.inheritDirection
  split <;> simp only [SelRegion.toForward, SelRegion.toBackward, SelRegion.min_new,
    SelRegion.max_new, SelRegion.main_new, and_true] <;> omega

/-- The parts of a region before and behind a range in it. -/
theorem splitAtRegion_spec {r : SelRegion} {start stop : Nat} (h1 : r.min ≤ start)
    (h2 : stop ≤ r.max) :
    (∀ left ∈ (r.splitAtRegion start stop).1,
      left.min = r.min ∧ left.max = start - 1 ∧ r.min < start ∧ left.main = false) ∧
    ((r.splitAtRegion start stop).1 = none → start = r.min) ∧
    (∀ right ∈ (r.splitAtRegion start stop).2,
      right.min = stop + 1 ∧ right.max = r.max ∧ stop < r.max ∧ right.main = false) ∧
    ((r.splitAtRegion start stop).2 = none → stop = r.max) := by
  have hl := inheritDirection_bounds (SelRegion.new r.min (start - 1)) r
  have hr := inheritDirection_bounds (SelRegion.new (stop + 1) r.max) r
  simp only [SelRegion.min_new, SelRegion.max_new] at hl hr
  unfold SelRegion.splitAtRegion
  by_cases hs : start ≤ r.min <;> by_cases he : r.max ≤ stop <;>
    simp only [hs, he, if_true, if_false, Option.mem_def, Option.some.injEq, reduceCtorEq,
      forall_eq', false_implies, implies_true, true_and, and_true, hl, hr, SelRegion.min_new,
      SelRegion.max_new, SelRegion.main_new] <;> omega

private theorem isSplit_none {r : SelRegion} {left : Option SelRegion} {x : Interval}
    (hx : r.min ≤ x.start ∧ x.start < x.stop ∧ x.stop = r.max + 1)
    (hl : ∀ l ∈ left, l.min = r.min ∧ l.max = x.start - 1 ∧ r.min < x.start ∧ l.main = false)
    (hn : left = none → x.start = r.min) : IsSplit r [x] left.toList := by
  have hr := r.min_le_max
  cases left with
  | none =>
    have := hn rfl
    refine ⟨by simp, by simp, ?_, by simp⟩
    simp only [Option.toList_none, List.map_nil, List.sum_nil, rangesLen, List.map_cons,
      List.sum_cons, SelRegion.len]
    omega
  | some l =>
    obtain ⟨h1, h2, h3, h4⟩ := hl l rfl
    refine ⟨by simp only [Option.toList_some, List.forall_mem_singleton]; omega, by simp, ?_,
      by simp [h4]⟩
    simp only [Option.toList_some, List.map_cons, List.map_nil, List.sum_cons, List.sum_nil,
      rangesLen, SelRegion.len]
    omega

private theorem IsSplit.cons {r right : SelRegion} {left : Option SelRegion} {x : Interval}
    {ranges : List Interval} {out : List SelRegion} (hx : r.min ≤ x.start ∧ x.start < x.stop)
    (hl : ∀ l ∈ left, l.min = r.min ∧ l.max = x.start - 1 ∧ r.min < x.start ∧ l.main = false)
    (hn : left = none → x.start = r.min)
    (hr : right.min = x.stop ∧ right.max = r.max ∧ x.stop ≤ r.max ∧ right.main = false)
    (h : IsSplit right ranges out) : IsSplit r (x :: ranges) (left.toList ++ out) := by
  obtain ⟨h1, h2, h3, h4⟩ := hr
  have hlen := h.length_add
  have hout : ∀ s ∈ out, r.min ≤ s.min ∧ s.max ≤ r.max ∧ x.stop ≤ s.min ∧ s.main = false := by
    intro s hs
    obtain ⟨i1, i2⟩ := h.inside s hs
    refine ⟨by omega, by omega, by omega, ?_⟩
    by_contra hc
    rw [Bool.not_eq_false] at hc
    simp [(h.main s hs hc).1] at h4
  cases left with
  | none =>
    have := hn rfl
    refine ⟨fun s hs ↦ ⟨(hout s hs).1, (hout s hs).2.1⟩, h.sorted, ?_, fun s hs hm ↦ ?_⟩
    · simp only [Option.toList_none, List.nil_append, rangesLen, List.map_cons, List.sum_cons,
        SelRegion.len] at hlen ⊢
      omega
    · simp [(hout s hs).2.2.2] at hm
  | some l =>
    obtain ⟨g1, g2, g3, g4⟩ := hl l rfl
    rw [Option.toList_some, List.singleton_append]
    refine ⟨?_, List.pairwise_cons.mpr ⟨fun s hs ↦ ?_, h.sorted⟩, ?_, ?_⟩
    · refine List.forall_mem_cons.mpr ⟨by omega, fun s hs ↦ ⟨(hout s hs).1, (hout s hs).2.1⟩⟩
    · have := (hout s hs).2.2.1
      unfold Before
      omega
    · simp only [rangesLen, List.map_cons, List.sum_cons, SelRegion.len] at hlen ⊢
      omega
    · refine List.forall_mem_cons.mpr ⟨by simp [g4], fun s hs hm ↦ ?_⟩
      simp [(hout s hs).2.2.2] at hm

/-- The loop over ranges in a region by its cases: no range is left, the range takes the end of
the region, or the loop goes on with what is behind the range. -/
theorem splitRegion_induction {motive : SelRegion → List Interval → List SelRegion → Prop}
    (nil : ∀ r, motive r [] [r])
    (last : ∀ (r : SelRegion) (x : Interval) (left : Option SelRegion),
      RangesIn r.min r.max [x] → x.stop = r.max + 1 →
      r.splitAtRegion x.start (x.stop - 1) = (left, none) →
      (∀ l ∈ left, l.min = r.min ∧ l.max = x.start - 1 ∧ r.min < x.start ∧ l.main = false) →
      (left = none → x.start = r.min) → motive r [x] left.toList)
    (cons : ∀ (r : SelRegion) (x : Interval) (left : Option SelRegion) (right : SelRegion)
      (ranges : List Interval) (out : List SelRegion), RangesIn r.min r.max (x :: ranges) →
      r.splitAtRegion x.start (x.stop - 1) = (left, some right) →
      (∀ l ∈ left, l.min = r.min ∧ l.max = x.start - 1 ∧ r.min < x.start ∧ l.main = false) →
      (left = none → x.start = r.min) →
      right.min = x.stop ∧ right.max = r.max ∧ x.stop ≤ r.max ∧ right.main = false →
      motive right ranges out → motive r (x :: ranges) (left.toList ++ out))
    {r : SelRegion} {ranges : List Interval} (h : RangesIn r.min r.max ranges) :
    motive r ranges (splitRegion r ranges) := by
  induction ranges generalizing r with
  | nil => exact nil r
  | cons x ranges ih =>
    have hx := h.within x List.mem_cons_self
    have hspec := splitAtRegion_spec hx.1 (show x.stop - 1 ≤ r.max by omega)
    rcases hp : r.splitAtRegion x.start (x.stop - 1) with ⟨left, right⟩
    rw [hp] at hspec
    obtain ⟨hl, hln, hr, hrn⟩ := hspec
    simp only [splitRegion, hp]
    cases right with
    | none =>
      have hstop := hrn rfl
      obtain rfl := h.tail_eq_nil (by omega)
      rw [List.append_nil]
      exact last r x left h (by omega) hp hl hln
    | some right =>
      obtain ⟨h1, h2, h3, h4⟩ := hr right rfl
      have hmin : right.min = x.stop := by omega
      refine cons r x left right ranges _ h hp hl hln ⟨hmin, h2, by omega, h4⟩ (ih ?_)
      rw [hmin, h2]
      exact h.tail

/-- The loop over the matches of a region splits it at them. -/
theorem isSplit_splitRegion {r : SelRegion} {ranges : List Interval}
    (h : RangesIn r.min r.max ranges) : IsSplit r ranges (splitRegion r ranges) := by
  apply splitRegion_induction (h := h)
  · intro r
    exact ⟨by simp, by simp, by simp [rangesLen], by simp⟩
  · intro r x left h hstop _ hl hln
    obtain ⟨hle, hlt, -⟩ := h.within x List.mem_cons_self
    exact isSplit_none ⟨hle, hlt, hstop⟩ hl hln
  · intro r x left right ranges out h _ hl hln hr ih
    obtain ⟨hle, hlt, -⟩ := h.within x List.mem_cons_self
    exact IsSplit.cons ⟨hle, hlt⟩ hl hln hr ih

private theorem IsSplit.divides {r : SelRegion} {ranges : List Interval} {out : List SelRegion}
    (h : IsSplit r ranges out) : Selection.Divides r out := ⟨h.inside, h.sorted, h.main⟩

/-- Something of the region is left exactly when the ranges do not take all of it. -/
theorem IsSplit.ne_nil_iff {r : SelRegion} {ranges : List Interval} {out : List SelRegion}
    (h : IsSplit r ranges out) : out ≠ [] ↔ rangesLen ranges < r.len := by
  have hlen := h.length_add
  cases out with
  | nil => simp only [List.map_nil, List.sum_nil] at hlen; simp; omega
  | cons s out =>
    simp only [List.map_cons, List.sum_cons, SelRegion.len] at hlen
    simp only [ne_eq, reduceCtorEq, not_false_eq_true, true_iff, SelRegion.len]
    omega

/-- Collapsing a region to ranges in it leaves one region for each. -/
theorem divides_collapse {r : SelRegion} {ranges : List Interval}
    (h : RangesIn r.min r.max ranges) :
    Selection.Divides r (collapseRegion r ranges) := by
  have hbounds : ∀ x ∈ ranges,
      ((SelRegion.new x.start (x.stop - 1)).inheritDirection r).min = x.start ∧
      ((SelRegion.new x.start (x.stop - 1)).inheritDirection r).max = x.stop - 1 := by
    intro x hx
    obtain ⟨h1, h2, -⟩ := inheritDirection_bounds (SelRegion.new x.start (x.stop - 1)) r
    have := h.within x hx
    simp only [SelRegion.min_new, SelRegion.max_new] at h1 h2
    omega
  refine ⟨fun s hs ↦ ?_, ?_, fun s hs hm ↦ ?_⟩
  · obtain ⟨x, hx, rfl⟩ := List.mem_map.mp hs
    have h1 := hbounds x hx
    have h2 := h.within x hx
    omega
  · rw [collapseRegion, List.pairwise_map]
    refine h.ordered.imp_of_mem fun {x y} hx hy hxy ↦ ?_
    have h1 := hbounds x hx
    have h2 := hbounds y hy
    have h3 := h.within x hx
    unfold Before
    omega
  · obtain ⟨x, hx, rfl⟩ := List.mem_map.mp hs
    rw [(inheritDirection_bounds _ _).2.2] at hm
    simp at hm

/-! ## Applying a search -/

/-- A closure that takes the ranges of its region off the front gets to the end of them. -/
theorem collect_takeFront (h : SelRegion → List Interval → List SelRegion)
    (m : SelRegion → List Interval) (regions : List SelRegion) :
    collect (takeFront h) regions (regions.map m) = some ([], regions.map fun r ↦ h r (m r)) := by
  induction regions with
  | nil => rfl
  | cons r regions ih => simp [collect, takeFront, ih]

/-- With a list for each region the closure gives each region its own. -/
theorem map_snd_mapSelections_takeFront (sel : Selection)
    (h : SelRegion → List Interval → List SelRegion) (m : SelRegion → List Interval) :
    (sel.mapSelections (takeFront h) (sel.regions.map m)).map Prod.snd =
      sel.mapRegions fun r ↦ h r (m r) := by
  rw [Selection.mapSelections_eq, collect_takeFront, Option.bind_some, Option.map_map]
  exact Option.map_id'

/-- So it maps each region with its own ranges. -/
theorem map_fst_mapSelections_takeFront (b : CurrentBuffer X)
    (h : SelRegion → List Interval → List SelRegion) (m : SelRegion → List Interval) :
    (b.mapSelections (takeFront h) (b.selection.regions.map m)).map Prod.fst =
      (b.selection.mapRegions fun r ↦ h r (m r)).map fun sel ↦ { b with selection := sel } := by
  rw [CurrentBuffer.map_fst_mapSelections, ← map_snd_mapSelections_takeFront, Option.map_map]
  rfl

namespace SearchAcceptor

/-- What becomes of the ranges matched in a region. -/
def keptOf : SearchAcceptor → SelRegion → List Interval → List SelRegion
  | .split _ => splitRegion
  | .collapse => collapseRegion

/-- The search changes nothing: all of the selection is matched, or nothing of it. -/
def Refuses (pattern : Pattern) (b : CurrentBuffer X) : SearchAcceptor → Prop
  | .split _ => ∀ r ∈ b.selection.regions, rangesLen (pattern.matchesIn b.data r) = r.len
  | .collapse => ∀ r ∈ b.selection.regions, pattern.matchesIn b.data r = []

instance (pattern : Pattern) (b : CurrentBuffer X) (next : SearchAcceptor) :
    Decidable (next.Refuses pattern b) :=
  match next with
  | .split _ => inferInstanceAs (Decidable (∀ r ∈ b.selection.regions, _ = _))
  | .collapse => inferInstanceAs (Decidable (∀ r ∈ b.selection.regions, _ = _))

/-- Something is kept of a region: not all of it is matched, or something is. -/
def Keeps (pattern : Pattern) (data : List UInt8) (r : SelRegion) : SearchAcceptor → Prop
  | .split _ => rangesLen (pattern.matchesIn data r) < r.len
  | .collapse => pattern.matchesIn data r ≠ []

instance (pattern : Pattern) (data : List UInt8) (r : SelRegion) (next : SearchAcceptor) :
    Decidable (next.Keeps pattern data r) :=
  match next with
  | .split _ => inferInstanceAs (Decidable (_ < _))
  | .collapse => inferInstanceAs (Decidable (_ ≠ _))

variable {pattern : Pattern} {b : CurrentBuffer X}

private theorem matchedLen_map (m : SelRegion → List Interval) (regions : List SelRegion) :
    matchedLen (regions.map m) = (regions.map fun r ↦ rangesLen (m r)).sum := by
  induction regions with
  | nil => rfl
  | cons r regions ih =>
    simp only [matchedLen, List.map_cons, List.flatten_cons, List.map_append, List.sum_append,
      List.sum_cons] at ih ⊢
    rw [ih]
    rfl

private theorem sum_le_sum {f g : SelRegion → Nat} {l : List SelRegion}
    (h : ∀ r ∈ l, f r ≤ g r) :
    (l.map f).sum ≤ (l.map g).sum ∧ ((l.map f).sum = (l.map g).sum ↔ ∀ r ∈ l, f r = g r) := by
  induction l with
  | nil => simp
  | cons r l ih =>
    obtain ⟨hr, hl⟩ := List.forall_mem_cons.mp h
    obtain ⟨hle, hiff⟩ := ih hl
    simp only [List.map_cons, List.sum_cons, List.forall_mem_cons, ← hiff]
    omega

private theorem rangesLen_eq_zero_iff {lo hi : Nat} {ranges : List Interval}
    (h : RangesIn lo hi ranges) : rangesLen ranges = 0 ↔ ranges = [] := by
  constructor
  · intro hz
    cases ranges with
    | nil => rfl
    | cons x ranges =>
      have hx := (h.within x (by simp)).2.1
      simp only [rangesLen, List.map_cons, List.sum_cons] at hz
      omega
  · rintro rfl
    rfl

/-- The guards compare totals over all regions. -/
theorem refuses_iff (hp : pattern.pieces ≠ []) (next : SearchAcceptor) :
    next.Refuses pattern b ↔
      matchedLen (b.selection.regions.map (pattern.matchesIn b.data)) =
        match next with
        | .split _ => b.selection.lenBytes
        | .collapse => 0 := by
  have hr := pattern.rangesIn_matchesIn hp b.data
  rw [matchedLen_map]
  cases next with
  | split mode =>
    refine (sum_le_sum fun r _ ↦ ?_).2.symm
    have := (isSplit_splitRegion (hr r)).length_add
    omega
  | collapse =>
    have hz := (sum_le_sum (l := b.selection.regions) (f := fun _ ↦ 0)
      (g := fun r ↦ rangesLen (pattern.matchesIn b.data r)) fun _ _ ↦ Nat.zero_le _).2
    have hzero : (b.selection.regions.map fun _ ↦ 0).sum = 0 := by simp
    rw [hzero] at hz
    simp only [Refuses, ← rangesLen_eq_zero_iff (hr _), eq_comm, hz]

/-- The two searches in one form. -/
theorem applySearch_eq (E : SearchEngine) (next : SearchAcceptor) (hp : pattern.pieces ≠ [])
    (hb : ∀ r ∈ b.selection.regions, r.InBounds b.data.length) (hn : b.data.length < 2 ^ 63) :
    next.applySearch E pattern b =
      if pattern.Compiles E then
        if next.Refuses pattern b then Outcome.keep b (.newMode (.normal .new))
        else Outcome.modeAndDirty (.normal .new) (b.mapSelections (takeFront next.keptOf)
          (b.selection.regions.map (pattern.matchesIn b.data)))
      else none := by
  have hm := pattern.mapSelectionsToMatches_eq E hp hb hn
  have href := refuses_iff (b := b) hp next
  cases next <;>
    simp only [applySearch, Split.applySearch, collapseSearch, if_neg hp, hm, href, keptOf] <;>
    by_cases hc : pattern.Compiles E <;>
    simp only [hc, if_true, if_false, Option.bind_eq_bind, Option.bind_some, Option.bind_none]

/-- A search leaves the buffer as it is, or divides the regions at their matches. -/
theorem of_applySearch {E : SearchEngine} {next : SearchAcceptor} {t : ModeTransition}
    {b' : CurrentBuffer X} (hb : ∀ r ∈ b.selection.regions, r.InBounds b.data.length)
    (hn : b.data.length < 2 ^ 63) (h : next.applySearch E pattern b = some (some (t, b'))) :
    t.report = none ∧ b' = b ∨ pattern.pieces ≠ [] ∧ ∃ d, t.report = some d ∧
      b.mapSelections (takeFront next.keptOf)
        (b.selection.regions.map (pattern.matchesIn b.data)) = some (b', d) := by
  have hkeep (hk : Outcome.keep b (.newMode (.normal .new)) = some (some (t, b'))) :
      t.report = none ∧ b' = b := by
    obtain ⟨rfl, rfl⟩ := Outcome.of_keep hk
    exact ⟨rfl, rfl⟩
  by_cases hp : pattern.pieces = []
  · refine .inl (hkeep ?_)
    cases next <;> simpa only [applySearch, Split.applySearch, collapseSearch, if_pos hp] using h
  · rw [applySearch_eq E next hp hb hn] at h
    split at h
    · split at h
      · exact .inl (hkeep h)
      · obtain ⟨⟨b₁, d⟩, hm, heq⟩ := Option.map_eq_some_iff.mp h
        obtain ⟨rfl, rfl⟩ := Prod.mk.inj (Option.some.inj heq)
        exact .inr ⟨hp, d, rfl, hm⟩
    · cases h

/-- What a search keeps of a region lies in it, in order. -/
theorem divides_keptOf (next : SearchAcceptor) {r : SelRegion} {ranges : List Interval}
    (h : RangesIn r.min r.max ranges) : Selection.Divides r (next.keptOf r ranges) := by
  cases next with
  | split mode => exact (isSplit_splitRegion h).divides
  | collapse => exact divides_collapse h

private theorem keptOf_ne_nil_iff (next : SearchAcceptor) (hp : pattern.pieces ≠ [])
    (data : List UInt8)
    (r : SelRegion) :
    next.keptOf r (pattern.matchesIn data r) ≠ [] ↔ next.Keeps pattern data r := by
  cases next with
  | split mode => exact (isSplit_splitRegion (pattern.rangesIn_matchesIn hp data r)).ne_nil_iff
  | collapse => simp [keptOf, collapseRegion, Keeps]

/-- When a search of a valid selection panics, and that it leaves a valid selection in the buffer
otherwise. -/
theorem applySearch_spec (E : SearchEngine) (next : SearchAcceptor)
    (hp : pattern.pieces ≠ []) (hv : b.selection.Valid)
    (hb : b.selection.Placed b.data.length) (hn : b.data.length < 2 ^ 63) :
    (next.applySearch E pattern b = none ↔
      ¬ pattern.Compiles E ∨ (¬ next.Refuses pattern b ∧
        ∀ r ∈ b.selection.regions.take (b.selection.mainSelection + 1),
          ¬ next.Keeps pattern b.data r)) ∧
    ∀ o, next.applySearch E pattern b = some o → ∃ t b', o = some (t, b') ∧
      b'.selection.Valid ∧ b'.selection.Placed b'.data.length := by
  have hg : ∀ r ∈ b.selection.regions,
      Selection.Divides r (next.keptOf r (pattern.matchesIn b.data r)) := fun r _ ↦
    next.divides_keptOf (pattern.rangesIn_matchesIn hp b.data r)
  obtain ⟨hsome, hvalid⟩ := hv.mapRegions_divides hg
  have hmap := map_fst_mapSelections_takeFront b next.keptOf (pattern.matchesIn b.data)
  rw [applySearch_eq E next hp hb.inBounds hn]
  by_cases hc : pattern.Compiles E
  · rw [if_pos hc]
    by_cases hr : next.Refuses pattern b
    · rw [if_pos hr]
      refine ⟨by simp [hc, hr, Outcome.keep], ?_⟩
      rintro o ⟨rfl⟩
      exact ⟨_, _, rfl, hv, hb⟩
    · rw [if_neg hr]
      constructor
      · rw [← Option.not_isSome_iff_eq_none, Outcome.isSome_modeAndDirty, hmap, Option.isSome_map,
          hsome]
        simp only [keptOf_ne_nil_iff next hp, hc, hr, not_true, not_false_eq_true, false_or,
          true_and, not_exists, not_and]
      · intro o ho
        obtain ⟨⟨b', d⟩, hmd, rfl⟩ := Option.map_eq_some_iff.mp ho
        rw [hmd, Option.map_some] at hmap
        obtain ⟨sel', hsel, hb'⟩ := Option.map_eq_some_iff.mp hmap.symm
        obtain rfl : { b with selection := sel' } = b' := hb'
        have hv' := hvalid sel' hsel
        refine ⟨_, _, rfl, hv', hv'.sorted, ?_⟩
        exact Selection.inBounds_mapRegions hsel fun r hr s hs ↦ by
          have h1 := ((hg r hr).inside s hs).2
          have h2 := (SelRegion.inBounds_iff_max_le _ _).mp (hb.inBounds r hr)
          exact (SelRegion.inBounds_iff_max_le _ _).mpr (Nat.le_trans h1 h2)
  · rw [if_neg hc]
    exact ⟨by simp [hc], fun o ho ↦ by simp at ho⟩

/-- Applying a search to a valid selection panics exactly when its expression cannot be
built, or when it changes the selection and keeps nothing of the main region and of those
before it. The selection it leaves is valid and in the buffer. -/
theorem applySearch_eq_none_iff (E : SearchEngine) (next : SearchAcceptor)
    (hp : pattern.pieces ≠ []) (hv : b.selection.Valid)
    (hb : b.selection.Placed b.data.length) (hn : b.data.length < 2 ^ 63) :
    (next.applySearch E pattern b = none ↔
      ¬ pattern.Compiles E ∨ (¬ next.Refuses pattern b ∧
        ∀ r ∈ b.selection.regions.take (b.selection.mainSelection + 1),
          ¬ next.Keeps pattern b.data r)) ∧
    ∀ o, next.applySearch E pattern b = some o → ∃ t b', o = some (t, b') ∧
      b'.selection.regions ≠ [] ∧ b'.selection.mainSelection < b'.selection.len ∧
      b'.selection.Valid ∧ b'.selection.Placed b'.data.length := by
  obtain ⟨hnone, hsome⟩ := applySearch_spec E next hp hv hb hn
  refine ⟨hnone, fun o ho ↦ ?_⟩
  obtain ⟨t, b', rfl, hv', hb'⟩ := hsome o ho
  exact ⟨t, b', rfl, hv'.nonempty, hv'.main_lt, hv', hb'⟩

/-- Four bytes with a cursor on the first and on the third, the first being the main one. -/
def twoCursors : CurrentBuffer (XiRope.reference UInt8) :=
  { CurrentBuffer.fromDataAndPath [0, 1, 2, 3] none with
    selection :=
      { regions := [{ caret := 0, tail := 0, main := true },
        { caret := 2, tail := 2, main := false }]
        mainSelection := 0 } }

/-- Collapsing to the byte under the main cursor succeeds. -/
theorem collapse_mainMatched :
    collapse.applySearch .reference { pieces := [.literal 0] } twoCursors ≠ none := by
  rw [Ne, (applySearch_eq_none_iff .reference .collapse (by decide) (by decide) (by decide)
    (by decide)).1]
  decide

/-- Collapsing panics when only a region behind the main one matches, and splitting when
the main region alone is matched completely. -/
theorem search_drops_main :
    twoCursors.selection.Valid ∧ twoCursors.selection.Placed twoCursors.data.length ∧
    collapse.applySearch .reference { pieces := [.literal 2] } twoCursors = none ∧
    (split .new).applySearch .reference { pieces := [.literal 0] } twoCursors = none := by
  refine ⟨by decide, by decide, ?_, ?_⟩ <;> rfl

end SearchAcceptor

end Tofu
