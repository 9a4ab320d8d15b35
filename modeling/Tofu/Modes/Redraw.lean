import Tofu.Buffer.Invalidated
import Tofu.Modes.Closures
import Tofu.Ops.Meaning

/-!
# What is redrawn after a key

A transition that changes no length reports intervals to redraw,
`DirtyBytes::ChangeInPlace`. They are complete when every offset that looks different
after the key lies in one of them: with another byte, selected or not, with or without a
caret, in the main region or not.
-/

namespace Tofu

open Rope Selection

variable {X : XiRope UInt8}

/-! ## What looks different -/

/-- What is drawn at an offset. -/
structure Shown where
  byte : Option UInt8
  selected : Bool
  caret : Bool
  main : Bool
  deriving DecidableEq, Repr

/-- What is seen of the buffer at an offset. -/
def CurrentBuffer.shownAt (b : CurrentBuffer X) (x : Nat) : Shown :=
  { byte := b.data[x]?
    selected := decide (Covered b.selection.regions x)
    caret := decide (CaretAt b.selection.regions x)
    main := decide (Covered (b.selection.regions.filter SelRegion.isMain) x) }

/-- Every offset that looks different afterwards is reported. -/
def SeesChanges (b b' : CurrentBuffer X) (intervals : List Interval) : Prop :=
  ∀ x ≤ max b.data.length b'.data.length, b.shownAt x ≠ b'.shownAt x → Reported intervals x

section Shown

variable {b b' : CurrentBuffer X} {intervals : List Interval} {x : Nat}

private theorem covered_of_caretAt {l : List SelRegion} (h : CaretAt l x) : Covered l x := by
  obtain ⟨r, hr, rfl⟩ := h
  exact ⟨r, hr, r.min_le_caret, r.caret_le_max⟩

private theorem covered_of_filter {l : List SelRegion} (h : Covered (l.filter SelRegion.isMain) x) :
    Covered l x := by
  obtain ⟨r, hr, hx⟩ := h
  exact ⟨r, (List.mem_filter.mp hr).1, hx⟩

/-- What no region covers looks the same, if its byte is the same. -/
theorem CurrentBuffer.shownAt_of_not_covered (hd : b.data[x]? = b'.data[x]?)
    (h : ¬ Covered b.selection.regions x) (h' : ¬ Covered b'.selection.regions x) :
    b.shownAt x = b'.shownAt x := by
  simp only [shownAt, hd, h, h', mt covered_of_caretAt h, mt covered_of_caretAt h',
    mt covered_of_filter h, mt covered_of_filter h']

/-- When the new regions are reported and other bytes are found in the old regions only, the old
regions decide. -/
theorem seesChanges_iff (hin : ∀ r ∈ b.selection.regions, r.InBounds b.data.length)
    (hnew : ∀ x ≤ max b.data.length b'.data.length, Covered b'.selection.regions x →
      Reported intervals x)
    (hdata : ∀ x, b.data[x]? ≠ b'.data[x]? → Covered b.selection.regions x) :
    SeesChanges b b' intervals ↔ ∀ x, Covered b.selection.regions x → Reported intervals x := by
  constructor
  · intro h x hx
    obtain ⟨r, hr, hmin, hmax⟩ := hx
    have hle : x ≤ max b.data.length b'.data.length := by
      have := (SelRegion.inBounds_iff_max_le _ r).mp (hin r hr)
      omega
    by_contra hrep
    refine hrep (h x hle fun heq ↦ ?_)
    have hsel := congrArg Shown.selected heq
    simp only [CurrentBuffer.shownAt, decide_eq_decide] at hsel
    exact hrep (hnew x hle (hsel.mp ⟨r, hr, hmin, hmax⟩))
  · intro h x hle hne
    by_contra hrep
    refine hne (CurrentBuffer.shownAt_of_not_covered ?_ (mt (h x) hrep) (mt (hnew x hle) hrep))
    by_contra hd
    exact hrep (h x (hdata x hd))

end Shown

/-! ## The changes of a selection -/

section MainFlag

variable {regions : List SelRegion} {x : Nat}

private theorem covered_setMain_iff (index : Nat) (main : Bool) :
    Covered (setMain regions index main) x ↔ Covered regions x := by
  have hbounds : ∀ l, Covered l x ↔ ∃ p ∈ l.map fun r ↦ (r.min, r.max), p.1 ≤ x ∧ x ≤ p.2 := by
    intro l
    simp only [Covered, List.mem_map, exists_exists_and_eq_and]
  rw [hbounds, hbounds, map_setMain fun _ _ ↦ rfl]

private theorem caretAt_setMain_iff (index : Nat) (main : Bool) :
    CaretAt (setMain regions index main) x ↔ CaretAt regions x := by
  have hcarets : ∀ l, CaretAt l x ↔ x ∈ l.map SelRegion.caret := fun l ↦ List.mem_map.symm
  rw [hcarets, hcarets, map_setMain fun _ _ ↦ rfl]

/-- Setting a main flag changes the main status in that region only. -/
theorem covered_filter_setMain {index : Nat} (main : Bool)
    (hx : ∀ r ∈ regions[index]?, ¬ (r.min ≤ x ∧ x ≤ r.max)) :
    Covered ((setMain regions index main).filter SelRegion.isMain) x ↔
      Covered (regions.filter SelRegion.isMain) x := by
  induction regions generalizing index with
  | nil => simp [setMain]
  | cons r regions ih =>
    cases index with
    | zero =>
      have hr : ¬ (r.min ≤ x ∧ x ≤ r.max) := hx r rfl
      have hr' : ¬ (SelRegion.min { r with main := main } ≤ x ∧
        x ≤ SelRegion.max { r with main := main }) := hr
      simp only [setMain, List.modify_zero_cons, List.filter_cons]
      split <;> split <;> simp [hr, hr']
    | succ index =>
      have := ih hx
      simp only [setMain, List.modify_succ_cons, List.filter_cons] at this ⊢
      split <;> simp [this]

/-- Removing a region selects nothing else. -/
theorem covered_remove {sel sel' : Selection} {index : Nat}
    (h : sel.remove index = some sel') (hx : Covered sel'.regions x) :
    Covered sel.regions x := by
  rcases regions_remove h with heq | ⟨m, heq⟩
  · rwa [heq] at hx
  · rw [heq, covered_setMain_iff] at hx
    obtain ⟨r, hr, hx⟩ := hx
    exact ⟨r, List.mem_of_mem_eraseIdx hr, hx⟩

/-- A selection of one of the regions covers nothing else. -/
theorem covered_retain {sel sel' : Selection} {index : Nat}
    (h : sel.retain index = some sel') (hx : Covered sel'.regions x) :
    Covered sel.regions x := by
  obtain ⟨r, hr, h⟩ := Option.bind_eq_some_iff.mp h
  obtain rfl := Option.some.inj h
  rw [covered_setMain, covered_cons] at hx
  exact ⟨r, List.mem_of_getElem? hr, hx.resolve_right not_covered_nil⟩

/-- `switch_main_sel` reports the old main region and the new one, and no flag is set outside of
these two. -/
theorem CurrentBuffer.of_switchMainSel {b b' : CurrentBuffer X} {intervals : List Interval}
    {f : Selection → Option Selection}
    (h : b.switchMainSel f = some (b', .changeInPlace intervals))
    (hf : ∀ sel, f b.selection = some sel → sel.regions =
      setMain (setMain b.selection.regions b.selection.mainSelection false) sel.mainSelection
        true) :
    ∃ (sel : Selection) (oldMain newMain : SelRegion), b' = { b with selection := sel } ∧
      intervals = [oldMain.interval, newMain.interval] ∧ sel.main = some newMain ∧
      sel.regions = setMain (setMain b.selection.regions b.selection.mainSelection false)
        sel.mainSelection true ∧
      ∀ x, ¬ (oldMain.min ≤ x ∧ x ≤ oldMain.max) → ¬ (newMain.min ≤ x ∧ x ≤ newMain.max) →
        (∀ r ∈ b.selection.regions[b.selection.mainSelection]?, ¬ (r.min ≤ x ∧ x ≤ r.max)) ∧
        ∀ r ∈ (setMain b.selection.regions b.selection.mainSelection false)[sel.mainSelection]?,
          ¬ (r.min ≤ x ∧ x ≤ r.max) := by
  obtain ⟨oldMain, hold, h⟩ := Option.bind_eq_some_iff.mp h
  obtain ⟨sel, hs, h⟩ := Option.bind_eq_some_iff.mp h
  obtain ⟨newMain, hnew, h⟩ := Option.bind_eq_some_iff.mp h
  simp only [Option.some.injEq, Prod.mk.injEq, DirtyBytes.changeInPlace.injEq] at h
  obtain ⟨rfl, rfl⟩ := h
  have hregions := hf sel hs
  refine ⟨sel, oldMain, newMain, rfl, rfl, hnew, hregions, fun x hnotOld hnotNew ↦ ⟨?_, ?_⟩⟩
  · intro r hr
    obtain rfl := Option.some.inj (hold.symm.trans hr)
    exact hnotOld
  · intro r hr hcov
    -- the new main region is this one with its flag set
    have hflag : sel.regions[sel.mainSelection]? = some { r with main := true } := by
      rw [hregions, setMain, List.getElem?_modify_eq, hr]
      rfl
    obtain rfl := Option.some.inj (hnew.symm.trans hflag)
    exact hnotNew hcov

end MainFlag

section Changes

variable {b b' : CurrentBuffer X} {intervals : List Interval}
  (hsmall : b.data.length < 2 ^ 63) (hin : ∀ r ∈ b.selection.regions, r.InBounds b.data.length)
include hsmall hin

/-- `map_selections` reports everything when the closure returns regions that meet. -/
theorem seesChanges_of_mapSelections {σ : Type}
    {f : σ → SelRegion → Option (σ × List SelRegion)} {s : σ}
    (h : b.mapSelections f s = some (b', .changeInPlace intervals))
    (hf : ∀ s' outputs, collect f b.selection.regions s = some (s', outputs) →
      outputs.flatten.Pairwise Meets) : SeesChanges b b' intervals := by
  obtain ⟨s', outputs, hc, ho, hdata, hcov⟩ := CurrentBuffer.of_mapSelections h
  refine (seesChanges_iff hin (fun x hx hsel ↦ ?_) fun x hd ↦ ?_).mpr fun x hx ↦ ?_
  · rw [hdata] at hx
    exact (hcov x (by omega)).mpr (.inr ((covered_ofOutputs ho (hf s' outputs hc) x).mp hsel))
  · exact absurd (by rw [hdata]) hd
  · obtain ⟨r, hr, hmin, hmax⟩ := hx
    have := (SelRegion.inBounds_iff_max_le _ r).mp (hin r hr)
    exact (hcov x (by omega)).mpr (.inl ⟨r, hr, hmin, hmax⟩)

/-- `modify_sels_in_place` reports the old regions, which is enough when nothing else is selected
afterwards. -/
theorem seesChanges_of_modifySelsInPlace {f : Selection → Option Selection}
    (h : b.modifySelsInPlace f = some (b', .changeInPlace intervals))
    (hf : ∀ sel, f b.selection = some sel → ∀ x, Covered sel.regions x →
      Covered b.selection.regions x) : SeesChanges b b' intervals := by
  obtain ⟨sel, hs, h⟩ := Option.bind_eq_some_iff.mp h
  simp only [Option.some.injEq, Prod.mk.injEq, DirtyBytes.changeInPlace.injEq] at h
  obtain ⟨rfl, rfl⟩ := h
  have hold : ∀ x, Covered b.selection.regions x →
      Reported (b.selection.regions.map SelRegion.interval) x := by
    intro x hx
    obtain ⟨r, hr, hmin, hmax⟩ := hx
    have := (SelRegion.inBounds_iff_max_le _ r).mp (hin r hr)
    exact (reported_map_interval (by omega)).mpr ⟨r, hr, hmin, hmax⟩
  have hiff :
      SeesChanges b { b with selection := sel } (b.selection.regions.map SelRegion.interval) ↔
        ∀ x, Covered b.selection.regions x → Reported _ x :=
    seesChanges_iff hin (fun x _ hx ↦ hold x (hf sel hs x hx)) fun x hd ↦ absurd rfl hd
  exact hiff.mpr hold

omit hin in
/-- `switch_main_sel` reports the old and the new main region, and nothing else looks different
when only the flags of these two are set. -/
theorem seesChanges_of_switchMainSel {f : Selection → Option Selection}
    (h : b.switchMainSel f = some (b', .changeInPlace intervals))
    (hf : ∀ sel, f b.selection = some sel → sel.regions =
      setMain (setMain b.selection.regions b.selection.mainSelection false) sel.mainSelection
        true) : SeesChanges b b' intervals := by
  obtain ⟨sel, oldMain, newMain, rfl, rfl, -, hregions, hothers⟩ :=
    CurrentBuffer.of_switchMainSel h hf
  intro x hx hne
  simp only [max_self] at hx
  simp only [reported_cons, SelRegion.contains_interval (show x < 2 ^ 64 - 1 by omega),
    not_reported_nil, or_false]
  by_contra hrep
  obtain ⟨hnotOld, hnotNew⟩ := hothers x (not_or.mp hrep).1 (not_or.mp hrep).2
  refine hne ?_
  have hmain : Covered (sel.regions.filter SelRegion.isMain) x ↔
      Covered (b.selection.regions.filter SelRegion.isMain) x := by
    rw [hregions, covered_filter_setMain true hnotNew, covered_filter_setMain false hnotOld]
  simp only [CurrentBuffer.shownAt, hmain]
  simp only [hregions, covered_setMain_iff, caretAt_setMain_iff]

end Changes

/-! ## The closures -/

/-- Mapping a region each gives regions that meet, also where the arithmetic wraps around: what
is not made a cursor keeps an end. -/
theorem RegionMap.meets_apply (f : RegionMap) {a b : SelRegion} (hab : Before a b) :
    Meets (f.apply a) (f.apply b) := by
  have ht := Nat.le_of_lt hab.tail_lt
  have hm := hab.meets
  have hbounds : a.min ≤ a.max ∧ b.min ≤ b.max ∧ a.max < b.min := ⟨a.min_le_max, b.min_le_max, hab⟩
  have hkeep : ∀ p q : Nat, Meets (SelRegion.new p a.tail) (SelRegion.new q b.tail) := by
    intro p q
    refine .inl ?_
    simp only [SelRegion.min_new, SelRegion.max_new]
    omega
  have hcursors : ∀ p q : Nat, Meets (SelRegion.new p p) (SelRegion.new q q) :=
    fun p q ↦ .inr ⟨rfl, rfl⟩
  cases f with
  | jumpTo offset => exact hcursors _ _
  | collapse => exact hcursors _ _
  | extendTo offset => exact hkeep _ _
  | toBackward =>
    refine .inl ?_
    simp only [apply, SelRegion.toBackward, SelRegion.min_new, SelRegion.max_new]
    omega
  | swapCaret =>
    have := hab.caret_lt
    refine .inl ?_
    simp only [apply, SelRegion.swapCaret, SelRegion.min_new, SelRegion.max_new]
    omega
  | append bytesPerLine maxSize =>
    refine .inl ?_
    simp only [apply, Normal.appended, SelRegion.simpleExtend, SelRegion.toForward]
    split <;> simp only [SelRegion.min_new, SelRegion.max_new, SelRegion.tail_new] <;> omega
  | move direction bytesPerLine maxSize count =>
    simp only [apply, SelRegion.simpleMove]
    split
    · exact hm
    · exact hcursors _ _
  | extend direction bytesPerLine maxSize count =>
    simp only [apply, SelRegion.simpleExtend]
    split
    · exact hm
    · exact hkeep _ _
  | boundary mode direction bytesPerLine maxSize =>
    simp only [apply, JumpTo.moved, SelRegion.extendToBoundary, SelRegion.jumpToBoundary]
    split <;> split
    · exact hm
    · exact hkeep _ _
    · exact hm
    · exact hcursors _ _
  | insertMove direction bytesPerLine maxSize isHexHalf =>
    simp only [apply, Insert.moved, SelRegion.simpleMove]
    split <;> split
    · exact hm
    · exact hcursors _ _
    · exact hm
    · exact hcursors _ _

/-- The piece cut at an offset contains it, also where its end wraps around. -/
theorem bounds_piece (step cut : Nat) (r : SelRegion) :
    let piece := (SelRegion.new cut (min r.max (usizeSub (usizeAdd cut step) 1))).withDirection
      r.backward
    piece.min ≤ cut ∧ cut ≤ piece.max := by
  simp only [SelRegion.bounds_withDirection, SelRegion.min_new, SelRegion.max_new]
  omega

/-- The pieces of regions in order meet. -/
theorem meets_pieces (step : Nat) {regions : List SelRegion}
    (hs : regions.Pairwise Before) :
    (regions.map (Split.pieces step)).flatten.Pairwise Meets := by
  rw [List.pairwise_flatten, List.forall_mem_map, List.pairwise_map]
  refine ⟨fun r _ ↦ ?_, hs.imp fun {a b} hab p hp q hq ↦ ?_⟩
  · rw [Split.pieces, List.pairwise_map]
    refine List.pairwise_lt_range.imp_of_mem fun {i j} hi hj hij ↦ ?_
    have hmul := Nat.mul_le_mul_right step (Nat.le_of_lt hij)
    have hcut : r.min + i * step ≤ r.min + j * step := Nat.add_le_add_left hmul _
    exact .inl (Nat.le_trans (bounds_piece step _ r).1
      (Nat.le_trans hcut (bounds_piece step _ r).2))
  · obtain ⟨i, hi, rfl⟩ := List.mem_map.mp hp
    obtain ⟨j, hj, rfl⟩ := List.mem_map.mp hq
    have hcut : a.min + i * step ≤ b.min + j * step := by
      have := Split.cut_le_max (Nat.le_of_lt_succ (List.mem_range.mp hi))
      unfold Before at hab
      omega
    exact .inl (Nat.le_trans (bounds_piece step _ a).1
      (Nat.le_trans hcut (bounds_piece step _ b).2))

/-- Parts of regions in order meet. -/
theorem meets_divides {g : SelRegion → List SelRegion} {regions : List SelRegion}
    (hs : regions.Pairwise Before) (hg : ∀ r, Divides r (g r)) :
    (regions.map g).flatten.Pairwise Meets := by
  rw [List.pairwise_flatten, List.forall_mem_map, List.pairwise_map]
  refine ⟨fun r _ ↦ (hg r).sorted.imp Before.meets, hs.imp fun {a b} hab p hp q hq ↦ ?_⟩
  have h1 := (hg a).inside p hp
  have h2 := (hg b).inside q hq
  have h3 := p.min_le_max
  have h4 := q.min_le_max
  unfold Before at hab
  exact .inl (by omega)

/-! ## Selecting all -/

/-- Selecting all reports the bytes, but not the offset behind them. -/
def CurrentBuffer.SelectAllShown (b : CurrentBuffer X) : Prop :=
  b.data = [] ∨ ∀ r ∈ b.selection.regions, r.max < b.data.length

instance (b : CurrentBuffer X) : Decidable b.SelectAllShown :=
  inferInstanceAs (Decidable (_ ∨ _))

/-- Selecting all shows everything exactly when nothing was selected behind the bytes. -/
theorem seesChanges_selectAll_iff {b : CurrentBuffer X} (hp : b.selection.Placed b.data.length)
    (hmain : ∃ r ∈ b.selection.regions, r.isMain = true) :
    SeesChanges b { b with selection := b.selection.selectAll b.data.length }
        [{ start := 0, stop := b.data.length }] ↔ b.SelectAllShown := by
  by_cases hd : b.data = []
  · -- the only offset is selected, a caret and in the main region, before and after
    refine iff_of_true (fun x hx hne ↦ absurd ?_ hne) (.inl hd)
    obtain ⟨r, hr, hflag⟩ := hmain
    have hlen : b.data.length = 0 := by rw [hd, List.length_nil]
    obtain ⟨hcaret, htail⟩ := hp.inBounds r hr
    obtain rfl : x = 0 := by
      simp only [max_self] at hx
      omega
    have hr0 : r.min ≤ 0 ∧ 0 ≤ r.max := ⟨Nat.le_trans r.min_le_caret (by omega), Nat.zero_le _⟩
    have hbefore : b.shownAt 0 = ⟨none, true, true, true⟩ := by
      simp only [CurrentBuffer.shownAt, hd, List.getElem?_nil, Shown.mk.injEq, decide_eq_true_eq,
        true_and]
      exact ⟨⟨r, hr, hr0⟩, ⟨r, hr, by omega⟩, ⟨r, List.mem_filter.mpr ⟨hr, hflag⟩, hr0⟩⟩
    rw [hbefore, selectAll, if_pos hlen, CurrentBuffer.shownAt]
    simp only [hd]
    rfl
  · have hpos : b.data.length ≠ 0 := fun h ↦ hd (List.eq_nil_of_length_eq_zero h)
    have hrep : ∀ x, Reported [{ start := 0, stop := b.data.length }] x ↔ x < b.data.length := by
      intro x
      simp [Interval.contains_iff]
    rw [selectAll, if_neg hpos, seesChanges_iff hp.inBounds]
    · simp only [hrep, CurrentBuffer.SelectAllShown, hd, false_or]
      constructor
      · intro h r hr
        exact h r.max ⟨r, hr, r.min_le_max, Nat.le_refl _⟩
      · rintro h x ⟨r, hr, -, hx⟩
        exact Nat.lt_of_le_of_lt hx (h r hr)
    · intro x _ hx
      rw [covered_cons] at hx
      have := (hx.resolve_right not_covered_nil).2
      rw [hrep]
      simp only [SelRegion.max] at this
      omega
    · intro x hx
      exact absurd rfl hx

end Tofu
