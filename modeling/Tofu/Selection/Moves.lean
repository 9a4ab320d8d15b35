import Tofu.Selection.Coverage
import Tofu.Selection.Extend

/-!
# Moving and extending a whole selection

`simple_move` and `simple_extend` over every region (`src/src/selection.rs:267–314`). A
caret goes back by some number of offsets down to the start of the buffer, or on by some
number up to its end. Two carets come together at an end of the buffer only, where no
tail lies beyond them, so that regions that come to overlap point the same way.
-/

namespace Tofu

open SelRegion

/-- Offsets up to `n` go back or on by a fixed number, and stop at `0` and at `n`. -/
def ShiftsIn (n : Nat) (loc : Nat → Nat) : Prop :=
  ∃ k, (∀ c ≤ n, loc c = c - k) ∨ ∀ c ≤ n, loc c = min n (c + k)

namespace ShiftsIn

variable {n c c' : Nat} {loc : Nat → Nat}

/-- A caret is not moved behind the end. -/
theorem le (h : ShiftsIn n loc) (hc : c ≤ n) : loc c ≤ n := by
  obtain ⟨k, hk | hk⟩ := h <;> rw [hk c hc] <;> omega

/-- Carets are moved in order. -/
theorem mono (h : ShiftsIn n loc) (hcc : c ≤ c') (hc : c' ≤ n) : loc c ≤ loc c' := by
  obtain ⟨k, hk | hk⟩ := h <;> rw [hk c (by omega), hk c' hc] <;> omega

/-- Two offsets meet at an end only. -/
theorem eq_end_of_eq (h : ShiftsIn n loc) (hlt : c < c') (hc : c' ≤ n) (heq : loc c = loc c') :
    loc c = 0 ∨ loc c = n := by
  obtain ⟨k, hk | hk⟩ := h <;> rw [hk c (by omega), hk c' hc] at heq <;> rw [hk c (by omega)] <;>
    omega

end ShiftsIn

/-- A caret is moved by a shift. -/
theorem SelRegion.shiftsIn_movedCaret (direction : Direction) {bytesPerLine count n : Nat}
    (hb : 1 ≤ bytesPerLine) (h : bytesPerLine * count + n < 2 ^ 63) :
    ShiftsIn n (movedCaret direction bytesPerLine n count) := by
  have hcount : count ≤ bytesPerLine * count := Nat.le_mul_of_pos_left _ hb
  cases direction with
  | up =>
    refine ⟨bytesPerLine * count, .inl fun c hc ↦ ?_⟩
    rcases Nat.eq_zero_or_pos count with rfl | hpos
    · -- a count of zero leaves any line length without effect
      have hzero : isizeSaturatingMul (asIsize bytesPerLine) (asIsize 0) = ((0 : Nat) : Int) := by
        have hcount : asIsize 0 = 0 := rfl
        rw [hcount, isizeSaturatingMul, Int.mul_zero]
        rfl
      simp only [movedCaret]
      rw [hzero, asUsize_max_isizeSub (by omega) (by omega), Nat.mul_zero]
    · have : bytesPerLine ≤ bytesPerLine * count := Nat.le_mul_of_pos_right _ hpos
      exact movedCaret_up n (by omega) (by omega) (by omega)
  | down =>
    refine ⟨bytesPerLine * count, .inr fun c hc ↦ ?_⟩
    simp only [movedCaret]
    rw [usizeSaturatingMul_of_lt (by omega), usizeAdd_of_lt (by omega)]
  | left => exact ⟨count, .inl fun c hc ↦ movedCaret_left _ n (by omega) (by omega)⟩
  | right =>
    refine ⟨count, .inr fun c hc ↦ ?_⟩
    simp only [movedCaret]
    rw [usizeAdd_of_lt (by omega)]

namespace Selection

/-- Mapping each region to one region does not panic and leaves regions in order, within a
buffer of length `n`, that cover what the mapped regions do. -/
def MapsSafely (n : Nat) (g : SelRegion → SelRegion) (sel : Selection) : Prop :=
  ∃ sel', sel.mapSelections (pureClosure fun r ↦ [g r]) () = some ((), sel') ∧ sel'.Placed n ∧
    ∀ x, Covered sel'.regions x ↔ ∃ r ∈ sel.regions, (g r).min ≤ x ∧ x ≤ (g r).max

variable {n : Nat} {g : SelRegion → SelRegion} {sel : Selection}

/-- Regions that stay in order and do not clash are mapped safely. -/
theorem mapsSafely_of_notBehind (hn : (sel.regions.map g).Pairwise NotBehind)
    (hb : ∀ r ∈ sel.regions, (g r).InBounds n)
    (hc : ¬ ClashOn Touch Opposed (sel.regions.map g)) : sel.MapsSafely n g := by
  obtain ⟨sel', hsel⟩ := Option.isSome_iff_exists.mp ((isSome_mapRegions_iff hn).mpr hc)
  refine ⟨sel', by rw [mapSelections_pure, hsel]; rfl,
    placed_mapRegions hsel ((List.pairwise_map.mp hn).imp And.left) hb, fun x ↦ ?_⟩
  rw [covered_mapRegions hsel (hn.imp NotBehind.meets), covered_map]

/-- Sorted, disjoint regions are mapped to themselves. -/
theorem mapsSafely_id (hp : sel.Placed n) (hg : ∀ r, g r = r) : sel.MapsSafely n g := by
  have hmap : sel.regions.map g = sel.regions := (List.map_congr_left fun r _ ↦ hg r).trans
    (List.map_id _)
  refine mapsSafely_of_notBehind ?_ (fun r hr ↦ by rw [hg]; exact hp.inBounds r hr) ?_
  · rw [hmap]
    exact hp.sorted.imp Before.notBehind
  · rw [hmap]
    exact not_clashOn_of_isChain (hp.sorted.imp not_touch_iff_before.mpr).isChain

variable {loc : Nat → Nat}

/-- Cursors that are shifted stay in order, and do not point anywhere. -/
theorem mapsSafely_cursors (hp : sel.Placed n) (hl : ShiftsIn n loc) :
    sel.MapsSafely n fun r ↦ SelRegion.new (loc r.caret) (loc r.caret) := by
  have hcaret : ∀ r ∈ sel.regions, r.caret ≤ n := fun r hr ↦ (hp.inBounds r hr).1
  refine mapsSafely_of_notBehind ?_
    (fun r hr ↦ ⟨hl.le (hcaret r hr), hl.le (hcaret r hr)⟩) fun hclash ↦ ?_
  · refine List.pairwise_map.mpr (hp.sorted.imp_of_mem fun _ hs h ↦ ?_)
    have := hl.mono (Nat.le_of_lt h.caret_lt) (hcaret _ hs)
    simp only [NotBehind, min_new, max_new]
    omega
  · obtain ⟨a, ha, b, -, hopp⟩ := hclash.exists_mem
    obtain ⟨r, -, rfl⟩ := List.mem_map.mp ha
    simp [Opposed, StrictForward, StrictBackward] at hopp

/-- Carets that are shifted meet at an end of the buffer, with no tail beyond it. -/
theorem mapsSafely_carets (hp : sel.Placed n) (hl : ShiftsIn n loc) :
    sel.MapsSafely n fun r ↦ SelRegion.new (loc r.caret) r.tail := by
  have hcaret : ∀ r ∈ sel.regions, r.caret ≤ n := fun r hr ↦ (hp.inBounds r hr).1
  have hnotBehind : (sel.regions.map fun r ↦
      SelRegion.new (loc r.caret) r.tail).Pairwise NotBehind := by
    refine List.pairwise_map.mpr (hp.sorted.imp_of_mem fun _ hs h ↦ ?_)
    have h1 := hl.mono (Nat.le_of_lt h.caret_lt) (hcaret _ hs)
    have h2 := h.tail_lt
    simp only [NotBehind, min_new, max_new]
    omega
  refine mapsSafely_of_notBehind hnotBehind
    (fun r hr ↦ ⟨hl.le (hcaret r hr), (hp.inBounds r hr).2⟩) ?_
  rw [← isSome_mapRegions_iff hnotBehind, ← map_snd_mapSelections, Option.isSome_map,
    Option.isSome_iff_ne_none, Ne, mapSelections_toward_eq_none_iff (fun r ↦ loc r.caret)
      hp.sorted fun _ _ s hs h ↦ hl.mono h (hcaret s hs)]
  rintro ⟨r, hr, s, hs, heq, hrt, hst⟩
  beta_reduce at heq hrt hst
  have htail := (hp.inBounds s hs).2
  rcases eq_or_rel_of_pairwise hp.sorted hr hs with rfl | hb | hb
  · omega
  · have := hl.eq_end_of_eq hb.caret_lt (hcaret s hs) heq
    omega
  · have := hb.tail_lt
    omega

/-- Moving or extending sorted, disjoint regions within a buffer, of whatever directions, by
a count that fits does not panic and leaves sorted, disjoint regions within the buffer that
cover what each region became. -/
theorem moves_mapsSafely (hp : sel.Placed n) (direction : Direction) {bytesPerLine count : Nat}
    (hb : 1 ≤ bytesPerLine) (hc : bytesPerLine * count + n < 2 ^ 63) :
    sel.MapsSafely n (fun r ↦ r.simpleMove direction bytesPerLine n count) ∧
    sel.MapsSafely n (fun r ↦ r.simpleExtend direction bytesPerLine n count) := by
  by_cases hz : n = 0
  · -- nothing moves in an empty buffer
    exact ⟨mapsSafely_id hp fun r ↦ if_pos hz, mapsSafely_id hp fun r ↦ if_pos hz⟩
  · have hl := shiftsIn_movedCaret direction hb hc
    simp only [simpleMove, simpleExtend, if_neg hz]
    exact ⟨mapsSafely_cursors hp hl, mapsSafely_carets hp hl⟩

/-- A forward region, a cursor and a backward region pile up at the end of six bytes. -/
theorem moves_pileUp :
    let sel : Selection :=
      { regions := [⟨1, 0, true⟩, ⟨3, 3, false⟩, ⟨4, 6, false⟩], mainSelection := 0 }
    sel.MapsSafely 6 (fun r ↦ r.simpleMove .down 16 6 1) ∧
      sel.MapsSafely 6 (fun r ↦ r.simpleExtend .down 16 6 1) := by
  intro sel
  have hp : sel.Placed 6 := by decide
  exact moves_mapsSafely hp .down (by decide) (by decide)

end Selection

end Tofu
