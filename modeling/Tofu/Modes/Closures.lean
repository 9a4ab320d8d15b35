import Tofu.Base.Run
import Tofu.Modes.Insert
import Tofu.Modes.Matches
import Tofu.Modes.Normal
import Tofu.Rope.Reference
import Tofu.Selection.Upkeep

/-!
# The closures the modes map over the selection

Every call of `map_selections` by a mode: the closures that give each region one region,
the split by width, and the two searches. Each keeps the order of the regions or makes
them cursors, as long as its arithmetic does not wrap around.
-/

namespace Tofu

open SelRegion

/-- The closures that give each region one region. -/
inductive RegionMap where
  | jumpTo (offset : Nat)
  | extendTo (offset : Nat)
  | toBackward
  | append (bytesPerLine maxSize : Nat)
  | move (direction : Direction) (bytesPerLine maxSize count : Nat)
  | extend (direction : Direction) (bytesPerLine maxSize count : Nat)
  | swapCaret
  | collapse
  | boundary (mode : JumpTo) (direction : Direction) (bytesPerLine maxSize : Nat)
  | insertMove (direction : Direction) (bytesPerLine maxSize : Nat) (isHexHalf : Bool)
  deriving DecidableEq, Repr

namespace RegionMap

/-- The closure as the mode has it. -/
def apply : RegionMap → SelRegion → SelRegion
  | .jumpTo offset, r => r.jumpTo offset
  | .extendTo offset, r => r.extendTo offset
  | .toBackward, r => r.toBackward
  | .append bytesPerLine maxSize, r => Normal.appended bytesPerLine maxSize r
  | .move direction bytesPerLine maxSize count, r =>
    r.simpleMove direction bytesPerLine maxSize count
  | .extend direction bytesPerLine maxSize count, r =>
    r.simpleExtend direction bytesPerLine maxSize count
  | .swapCaret, r => r.swapCaret
  | .collapse, r => r.collapse
  | .boundary mode direction bytesPerLine maxSize, r =>
    mode.moved direction bytesPerLine maxSize r
  | .insertMove direction bytesPerLine maxSize isHexHalf, r =>
    Insert.moved direction bytesPerLine maxSize isHexHalf r

/-- The caret arithmetic of an extension does not wrap around at the region. -/
def Fits (f : RegionMap) (r : SelRegion) : Prop :=
  match f with
  | .append bytesPerLine _ => CountFits .right bytesPerLine 1 r.max
  | .extend direction bytesPerLine _ count => CountFits direction bytesPerLine count r.caret
  | .boundary _ direction bytesPerLine _ => LineFits direction bytesPerLine r.caret
  | _ => True

instance (f : RegionMap) (r : SelRegion) : Decidable (f.Fits r) :=
  match f with
  | .append bytesPerLine _ =>
    inferInstanceAs (Decidable (CountFits .right bytesPerLine 1 r.max))
  | .extend direction bytesPerLine _ count =>
    inferInstanceAs (Decidable (CountFits direction bytesPerLine count r.caret))
  | .boundary _ direction bytesPerLine _ =>
    inferInstanceAs (Decidable (LineFits direction bytesPerLine r.caret))
  | .jumpTo _ | .extendTo _ | .toBackward | .move _ _ _ _ | .swapCaret | .collapse
  | .insertMove _ _ _ _ => inferInstanceAs (Decidable True)

/-- The main flag is set on a region that is handed back unchanged only. -/
theorem main_apply {f : RegionMap} {r : SelRegion} (h : (f.apply r).main = true) :
    r.main = true := by
  cases f with
  | append bytesPerLine maxSize =>
    simp only [apply, Normal.appended, simpleExtend] at h
    split at h <;> simp [toForward] at h
  | move direction bytesPerLine maxSize count =>
    simp only [apply, simpleMove] at h
    split at h
    · exact h
    · simp at h
  | extend direction bytesPerLine maxSize count =>
    simp only [apply, simpleExtend] at h
    split at h
    · exact h
    · simp at h
  | boundary mode direction bytesPerLine maxSize =>
    simp only [apply, JumpTo.moved, extendToBoundary, jumpToBoundary] at h
    split at h <;> split at h
    · exact h
    · simp at h
    · exact h
    · simp at h
  | insertMove direction bytesPerLine maxSize isHexHalf =>
    simp only [apply, Insert.moved, simpleMove] at h
    split at h <;> split at h
    · exact h
    · simp at h
    · exact h
    · simp at h
  | jumpTo | extendTo | toBackward | swapCaret | collapse =>
    simp [apply, SelRegion.jumpTo, SelRegion.extendTo, SelRegion.toBackward,
      SelRegion.swapCaret, SelRegion.collapse] at h

/-- The closure makes every region a cursor. -/
def MakesCursors (f : RegionMap) : Prop := ∀ r, (f.apply r).caret = (f.apply r).tail

/-- Regions in order get starts in order. -/
theorem min_apply_le {f : RegionMap} (hf : ¬ f.MakesCursors) {a b : SelRegion}
    (hab : Before a b) (hb : f.Fits b) : (f.apply a).min ≤ (f.apply b).min := by
  have hc := Nat.le_of_lt hab.caret_lt
  have ht := Nat.le_of_lt hab.tail_lt
  have hm := hab.notBehind
  cases f with
  | jumpTo offset => exact absurd (fun _ ↦ rfl) hf
  | collapse => exact absurd (fun _ ↦ rfl) hf
  | extendTo offset =>
    simp only [apply, SelRegion.extendTo, min_new]
    omega
  | toBackward =>
    have ha := a.min_le_max
    have hb := b.min_le_max
    have := hm.1
    simp only [apply, SelRegion.toBackward, min_new]
    omega
  | swapCaret =>
    simp only [apply, SelRegion.swapCaret, min_new]
    omega
  | append bytesPerLine maxSize =>
    have := hm.1
    have ha := a.min_le_max
    have hbm := b.min_le_max
    simp only [apply, Normal.appended, simpleExtend]
    split
    · simp only [toForward, min_new]
      omega
    · have := movedCaret_mono maxSize (show CountFits .right bytesPerLine 1 b.max from hb) hm.2
      simp only [toForward, caret_new, tail_new, min_new]
      omega
  | extend direction bytesPerLine maxSize count =>
    simp only [apply, simpleExtend]
    split
    · exact hm.1
    · have := movedCaret_mono maxSize
        (show CountFits direction bytesPerLine count b.caret from hb) hc
      simp only [min_new]
      omega
  | move direction bytesPerLine maxSize count =>
    simp only [apply, simpleMove]
    split
    · exact hm.1
    · next hz =>
      refine absurd (fun r ↦ ?_) hf
      simp only [apply, simpleMove, if_neg hz, caret_new, tail_new]
  | boundary mode direction bytesPerLine maxSize =>
    have := boundaryCaret_mono maxSize
      (show LineFits direction bytesPerLine b.caret from hb) hc
    simp only [apply, JumpTo.moved, extendToBoundary, jumpToBoundary]
    split <;> split
    · exact hm.1
    · simp only [min_new]
      omega
    · exact hm.1
    · simp only [min_new]
      omega
  | insertMove direction bytesPerLine maxSize isHexHalf =>
    by_cases hz : maxSize = 0
    · simp only [apply, Insert.moved, simpleMove, if_pos hz, ite_self]
      exact hm.1
    · refine absurd (fun r ↦ ?_) hf
      simp only [apply, Insert.moved, simpleMove, if_neg hz]
      split <;> simp only [caret_new, tail_new]

/-- A mapping that does not panic keeps the selection valid. -/
theorem valid_mapRegions {f : RegionMap} {sel sel' : Selection} (hv : sel.Valid)
    (hf : ∀ r ∈ sel.regions, f.Fits r)
    (h : sel.mapRegions (fun r ↦ [f.apply r]) = some sel') : sel'.Valid := by
  refine hv.mapRegions h (fun r _ ↦ main_apply) ?_
  by_cases hc : f.MakesCursors
  · exact .inr fun r _ ↦ hc r
  · exact .inl (hv.sorted.imp_of_mem fun _ hb hab ↦ min_apply_le hc hab (hf _ hb))

/-- Offsets lie in a buffer of length `n`, sizes are that of the buffer, and what is
subtracted from a caret fits the signed word. -/
def StaysIn (n : Nat) : RegionMap → Prop
  | .jumpTo offset | .extendTo offset => offset ≤ n
  | .move direction bytesPerLine maxSize count | .extend direction bytesPerLine maxSize count =>
    maxSize = n ∧ bytesPerLine < 2 ^ 63 ∧
      (direction = .up ∨ direction = .left → count < 2 ^ 63)
  | .append bytesPerLine maxSize | .boundary _ _ bytesPerLine maxSize
  | .insertMove _ bytesPerLine maxSize _ => maxSize = n ∧ bytesPerLine < 2 ^ 63
  | .toBackward | .swapCaret | .collapse => True

private theorem inBounds_simpleMove {direction : Direction} {bytesPerLine n count : Nat}
    {r : SelRegion} (hn : n < 2 ^ 63) (hb : bytesPerLine < 2 ^ 63)
    (hc : direction = .up ∨ direction = .left → count < 2 ^ 63) (hr : r.InBounds n) :
    (r.simpleMove direction bytesPerLine n count).InBounds n := by
  have := movedCaret_le (fun h ↦ ⟨hb, hc h, hn⟩) hr.1
  unfold simpleMove
  split
  · exact hr
  · exact ⟨this, this⟩

private theorem inBounds_simpleExtend {direction : Direction} {bytesPerLine n count : Nat}
    {r : SelRegion} (hn : n < 2 ^ 63) (hb : bytesPerLine < 2 ^ 63)
    (hc : direction = .up ∨ direction = .left → count < 2 ^ 63) (hr : r.InBounds n) :
    (r.simpleExtend direction bytesPerLine n count).InBounds n := by
  unfold simpleExtend
  split
  · exact hr
  · exact ⟨movedCaret_le (fun h ↦ ⟨hb, hc h, hn⟩) hr.1, hr.2⟩

/-- The closure keeps a region in the buffer. -/
theorem inBounds_apply {f : RegionMap} {n : Nat} {r : SelRegion} (hn : n < 2 ^ 63)
    (hf : f.StaysIn n) (hr : r.InBounds n) : (f.apply r).InBounds n := by
  have hmin : r.min ≤ n := Nat.le_trans r.min_le_caret hr.1
  have hmax : r.max ≤ n := (inBounds_iff_max_le n r).mp hr
  cases f with
  | jumpTo offset => exact ⟨hf, hf⟩
  | extendTo offset => exact ⟨hf, hr.2⟩
  | toBackward => exact ⟨hmin, hmax⟩
  | swapCaret => exact ⟨hr.2, hr.1⟩
  | collapse => exact ⟨hr.1, hr.1⟩
  | append bytesPerLine maxSize =>
    obtain ⟨rfl, hb⟩ := hf
    exact inBounds_simpleExtend hn hb (by simp) ⟨hmax, hmin⟩
  | move direction bytesPerLine maxSize count =>
    obtain ⟨rfl, hb, hc⟩ := hf
    exact inBounds_simpleMove hn hb hc hr
  | extend direction bytesPerLine maxSize count =>
    obtain ⟨rfl, hb, hc⟩ := hf
    exact inBounds_simpleExtend hn hb hc hr
  | boundary mode direction bytesPerLine maxSize =>
    obtain ⟨rfl, -⟩ := hf
    have := boundaryCaret_le direction bytesPerLine maxSize hr.1
    simp only [apply, JumpTo.moved, extendToBoundary, jumpToBoundary]
    split <;> split
    · exact hr
    · exact ⟨this, hr.2⟩
    · exact hr
    · exact ⟨this, this⟩
  | insertMove direction bytesPerLine maxSize isHexHalf =>
    obtain ⟨rfl, hb⟩ := hf
    have h1 : (r.simpleMove direction bytesPerLine maxSize 1).InBounds maxSize :=
      inBounds_simpleMove hn hb (by simp) hr
    simp only [apply, Insert.moved]
    split
    · exact inBounds_simpleMove hn hb (by simp) h1
    · exact h1

end RegionMap

/-! ## Splitting by width -/

/-- The ends of the pieces do not wrap around. -/
def Split.WidthFits (step : Nat) (r : SelRegion) : Prop := 0 < step ∧ r.max + step < 2 ^ 64

instance (step : Nat) (r : SelRegion) : Decidable (Split.WidthFits step r) :=
  inferInstanceAs (Decidable (_ ∧ _))

/-- A direction keeps the bounds, and clears the main flag. -/
theorem SelRegion.bounds_withDirection (r : SelRegion) (backward : Bool) :
    (r.withDirection backward).min = r.min ∧ (r.withDirection backward).max = r.max ∧
      (r.withDirection backward).main = false := by
  have := r.min_le_max
  unfold withDirection
  split <;> simp only [min_new, max_new, main_new, and_true] <;> omega

/-- No piece of the region ends behind the last word. -/
def Split.CutsFit (step : Nat) (r : SelRegion) : Prop :=
  0 < step ∧ ∀ k ≤ (r.max - r.min) / step, r.min + k * step + step ≤ 2 ^ 64

/-- The cuts lie in the region. -/
theorem Split.cut_le_max {step k : Nat} {r : SelRegion} (hk : k ≤ (r.max - r.min) / step) :
    r.min + k * step ≤ r.max := by
  have hstart := Nat.mul_le_of_le_div _ _ _ hk
  have hlen := r.min_le_max
  omega

/-- A width that fits a word cuts pieces that do. -/
theorem Split.WidthFits.cutsFit {step : Nat} {r : SelRegion} (h : WidthFits step r) :
    CutsFit step r := by
  obtain ⟨hpos, hfit⟩ := h
  refine ⟨hpos, fun k hk ↦ ?_⟩
  have := cut_le_max hk
  omega

/-- Each piece ends before the next cut, and the last one with the region. -/
theorem Split.bounds_pieces {step : Nat} {r : SelRegion} (h : CutsFit step r) :
    (pieces step r).map (fun s ↦ (s.min, s.max)) =
      (List.range ((r.max - r.min) / step + 1)).map fun k ↦
        (r.min + k * step, min r.max (r.min + k * step + step - 1)) := by
  obtain ⟨hpos, hfit⟩ := h
  rw [pieces, List.map_map]
  refine List.map_congr_left fun k hk ↦ ?_
  have hk : k ≤ (r.max - r.min) / step := Nat.le_of_lt_succ (List.mem_range.mp hk)
  have hcut := cut_le_max hk
  simp only [Function.comp_apply, bounds_withDirection, min_new, max_new,
    usizeSub_usizeAdd_one hpos (hfit k hk), Prod.mk.injEq]
  omega

/-- The pieces of a region lie in it, one behind the other. -/
theorem Split.divides_pieces {step : Nat} {r : SelRegion} (h : CutsFit step r) :
    Selection.Divides r (pieces step r) := by
  have hbounds := bounds_pieces h
  have hpos := h.1
  refine ⟨fun s hs ↦ ?_, ?_, fun s hs hm ↦ ?_⟩
  · have hmem : (s.min, s.max) ∈ (pieces step r).map fun s ↦ (s.min, s.max) :=
      List.mem_map_of_mem hs
    rw [hbounds] at hmem
    obtain ⟨k, -, hk⟩ := List.mem_map.mp hmem
    obtain ⟨h1, h2⟩ := Prod.mk.inj hk
    omega
  · have hpair : ((pieces step r).map fun s ↦ (s.min, s.max)).Pairwise fun p q ↦ p.2 < q.1 := by
      rw [hbounds, List.pairwise_map]
      refine List.pairwise_lt_range.imp fun {i j} hij ↦ ?_
      have hmul := Nat.mul_le_mul_right step (Nat.succ_le_of_lt hij)
      rw [Nat.succ_mul] at hmul
      omega
    rw [List.pairwise_map] at hpair
    exact hpair
  · obtain ⟨k, -, rfl⟩ := List.mem_map.mp hs
    simp [bounds_withDirection] at hm

/-! ## Runs of selection changes -/

/-- The calls that change a selection, other than carrying it through an edit. -/
inductive SelStep where
  | clear
  | retain (index : Nat)
  | remove (index : Nat)
  | selectAll (bufSize : Nat)
  | selectNext (count : Nat)
  | selectPrev (count : Nat)
  | map (f : RegionMap)
  | width (step : Nat)
  | search (next : SearchAcceptor) (pattern : Pattern) (data : List UInt8)
  deriving DecidableEq, Repr

namespace SelStep

variable (X : Rope.XiRope UInt8) (E : SearchEngine)

/-- The call on the selection; a search looks at the data of the buffer. -/
def run : SelStep → Selection → Option Selection
  | .clear, sel => some sel.clear
  | .retain index, sel => sel.retain index
  | .remove index, sel => sel.remove index
  | .selectAll bufSize, sel => some (sel.selectAll bufSize)
  | .selectNext count, sel => sel.selectNext count
  | .selectPrev count, sel => sel.selectPrev count
  | .map f, sel => (sel.mapSelections (Selection.pureClosure fun r ↦ [f.apply r]) ()).map Prod.snd
  | .width step, sel => (sel.mapSelections (Split.widthClosure step) ()).map Prod.snd
  | .search next pattern data, sel => do
    let b : CurrentBuffer X := { CurrentBuffer.fromDataAndPath data none with selection := sel }
    let matchedRanges ← pattern.mapSelectionsToMatches E b
    (sel.mapSelections (takeFront next.keptOf) matchedRanges).map Prod.snd

/-- An index in range with no shift of the main region, arithmetic that does not wrap around,
and a search for something in the buffer the selection is of. -/
def Fits : SelStep → Selection → Prop
  | .remove index, sel => index < sel.len ∧ ¬ sel.Shifts index
  | .map f, sel => ∀ r ∈ sel.regions, f.Fits r
  | .width step, sel => ∀ r ∈ sel.regions, Split.WidthFits step r
  | .search _ pattern data, sel =>
    pattern.pieces ≠ [] ∧ (∀ r ∈ sel.regions, r.InBounds data.length) ∧ data.length < 2 ^ 63
  | _, _ => True

instance (s : SelStep) (sel : Selection) : Decidable (s.Fits sel) :=
  match s with
  | .remove index => inferInstanceAs (Decidable (index < sel.len ∧ ¬ sel.Shifts index))
  | .map f => inferInstanceAs (Decidable (∀ r ∈ sel.regions, f.Fits r))
  | .width step => inferInstanceAs (Decidable (∀ r ∈ sel.regions, Split.WidthFits step r))
  | .search _ pattern data => inferInstanceAs (Decidable
      (pattern.pieces ≠ [] ∧ (∀ r ∈ sel.regions, r.InBounds data.length) ∧ data.length < 2 ^ 63))
  | .clear | .retain _ | .selectAll _ | .selectNext _ | .selectPrev _ =>
    inferInstanceAs (Decidable True)

variable {X E}

/-- The width closure is one without state when it does not panic. -/
theorem map_snd_widthClosure {step : Nat} (hs : 0 < step) (sel : Selection) :
    (sel.mapSelections (Split.widthClosure step) ()).map Prod.snd =
      sel.mapRegions (Split.pieces step) := by
  rw [← Selection.map_snd_mapSelections]
  congr 2
  funext _ r
  rw [Split.widthClosure, if_neg (by omega)]
  rfl

/-- One call keeps the representation invariant. -/
theorem valid_run {s : SelStep} {sel sel' : Selection} (hv : sel.Valid) (hf : s.Fits sel)
    (h : s.run X E sel = some sel') : sel'.Valid := by
  cases s with
  | clear =>
    obtain rfl := Option.some.inj h
    exact Selection.valid_new
  | retain index => exact Selection.Valid.retain h
  | remove index => exact hv.remove hf.1 hf.2 h
  | selectAll bufSize =>
    obtain rfl := Option.some.inj h
    exact sel.valid_selectAll bufSize
  | selectNext count => exact (Selection.switches_selectNext h).valid hv
  | selectPrev count => exact (Selection.switches_selectPrev h).valid hv
  | map f =>
    rw [run, Selection.map_snd_mapSelections] at h
    exact RegionMap.valid_mapRegions hv hf h
  | width step =>
    obtain ⟨r, hr⟩ := List.exists_mem_of_ne_nil _ hv.nonempty
    rw [run, map_snd_widthClosure (hf r hr).1] at h
    exact (hv.mapRegions_divides fun r hr ↦
      Split.divides_pieces (hf r hr).cutsFit).2 sel' h
  | search next pattern data =>
    obtain ⟨hp, hb, hn⟩ := hf
    obtain ⟨matchedRanges, hm, h⟩ := Option.bind_eq_some_iff.mp h
    rw [Pattern.mapSelectionsToMatches_eq E hp hb hn] at hm
    split at hm
    · obtain rfl := Option.some.inj hm
      rw [map_snd_mapSelections_takeFront] at h
      refine (hv.mapRegions_divides fun r _ ↦ ?_).2 sel' h
      exact next.divides_keptOf (pattern.rangesIn_matchesIn hp data r)
    · simp at hm

end SelStep

/-- In every state of a run that shifts no main region the representation invariant holds;
and removing another region than the main one keeps the invariant and the main region
exactly when it does not shift it. -/
theorem valid_along_selSteps (X : Rope.XiRope UInt8) (E : SearchEngine) (steps : List SelStep)
    (h : Along (SelStep.run X E) SelStep.Fits steps Selection.new) :
    Always (SelStep.run X E)
      (fun sel ↦ sel.Valid ∧ ∀ index, index < sel.len → index ≠ sel.mainSelection →
        ∀ sel', sel.remove index = some sel' →
          (sel'.Valid ∧ sel'.main = sel.main ↔ ¬ sel.Shifts index))
      steps Selection.new := by
  have hv : Always (SelStep.run X E) Selection.Valid steps Selection.new :=
    h.always Selection.valid_new fun _ _ _ hv hf hs ↦ SelStep.valid_run hv hf hs
  refine hv.imp fun sel hv ↦ ⟨hv, fun index hi hne sel' hr ↦ ⟨?_, ?_⟩⟩
  · rintro ⟨hv', -⟩ hs
    exact (hv.remove_shifts hs hr).1 hv'
  · intro hs
    exact ⟨hv.remove hi hs hr, hv.main_remove hi hne hs hr⟩

/-- Four cursors of which one behind the main one is removed. -/
theorem valid_along_remove :
    let X := Rope.XiRope.reference UInt8
    let steps : List SelStep := [.selectAll 4, .width 1, .selectNext 2, .remove 3]
    runSteps (SelStep.run X .reference) steps Selection.new ≠ none ∧
    Always (SelStep.run X .reference) Selection.Valid steps Selection.new := by
  intro X steps
  exact ⟨by decide, (valid_along_selSteps X .reference steps (by decide)).imp fun _ h ↦ h.1⟩

/-- Three cursors, the second of them the main one: without the first the third is at the
main index, and two are flagged. -/
theorem remove_shifts_main :
    let X := Rope.XiRope.reference UInt8
    ∃ sel sel', runSteps (SelStep.run X .reference) [.selectAll 3, .width 1, .selectPrev 1]
        Selection.new = some sel ∧ sel.Valid ∧ sel.remove 0 = some sel' ∧ ¬ sel'.Valid ∧
      sel.mainSelection ≠ 0 ∧ sel'.main ≠ sel.main := by
  refine ⟨_, _, rfl, ?_, rfl, ?_, ?_, ?_⟩ <;> decide

end Tofu
