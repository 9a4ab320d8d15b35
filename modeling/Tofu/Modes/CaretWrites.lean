import Tofu.Modes.HexByte
import Tofu.Ops.Meaning

/-!
# Writing over the bytes under all carets

What `change` and `overwrite_half` leave (`src/src/operations.rs:89–115`). A run of
carets on neighbouring bytes lands behind its last byte: no byte is kept between the ones
written over that a caret could stay at.
-/

namespace Tofu

open Rope SelRegion

variable {X : XiRope UInt8}

/-- Where a region goes when the bytes under all carets are written over. -/
def written (regions : List SelRegion) (r : SelRegion) : SelRegion :=
  .new (Splice.behind (regions.map caret) r.caret) (Splice.behind (regions.map caret) r.tail)

/-- The same, with the caret set back onto the last byte written. -/
def writtenBack (regions : List SelRegion) (r : SelRegion) : SelRegion :=
  .new (Splice.behind (regions.map caret) r.caret - 1) (Splice.behind (regions.map caret) r.tail)

section Regions

variable {l : List SelRegion} {r : SelRegion} (hl : l.Pairwise Before)
include hl

/-- A caret moves on behind the byte written over. -/
theorem lt_behind_caret (hr : r ∈ l) : r.caret < Splice.behind (l.map caret) r.caret :=
  Splice.lt_behind (pairwise_caret hl) (List.mem_map_of_mem hr)

/-- A tail that is not a caret stays. -/
theorem behind_tail (hr : r ∈ l) (hne : r.tail ≠ r.caret) :
    Splice.behind (l.map caret) r.tail = r.tail := by
  refine Splice.behind_of_notMem fun hmem ↦ hne ?_
  exact ((caretAt_iff hl hr r.min_le_tail r.tail_le_max).mp (List.mem_map.mp hmem)).symm

/-- The caret of a region that points backward has no other one behind it. -/
theorem behind_caret (hr : r ∈ l) (hb : r.StrictBackward) :
    Splice.behind (l.map caret) r.caret = r.caret + 1 := by
  have hlt := lt_behind_caret hl hr
  by_contra hne
  have hnext : r.caret + 1 ∈ l.map caret :=
    Splice.mem_of_lt_behind (Nat.le_succ _) (by omega)
  have h1 : r.min ≤ r.caret + 1 := Nat.le_succ_of_le r.min_le_caret
  have h2 : r.caret + 1 ≤ r.max := Nat.le_trans hb r.tail_le_max
  have := (caretAt_iff hl hr h1 h2).mp (List.mem_map.mp hnext)
  omega

variable {a b : SelRegion}

/-- Regions stay in order when the carets move on. -/
theorem notBehind_written (hab : Before a b) : NotBehind (written l a) (written l b) := by
  have h1 := Splice.behind_mono (pairwise_caret hl) (Nat.le_of_lt hab.caret_lt)
  have h2 := Splice.behind_mono (pairwise_caret hl) (Nat.le_of_lt hab.tail_lt)
  simp only [NotBehind, written, min_new, max_new]
  omega

/-- They do so when the carets are set back to the bytes written. -/
theorem notBehind_writtenBack (hab : Before a b) :
    NotBehind (writtenBack l a) (writtenBack l b) := by
  have h1 := Splice.behind_mono (pairwise_caret hl) (Nat.le_of_lt hab.caret_lt)
  have h2 := Splice.behind_mono (pairwise_caret hl) (Nat.le_of_lt hab.tail_lt)
  simp only [NotBehind, writtenBack, min_new, max_new]
  omega

end Regions

/-! ## The regions carried through the edits -/

section Carried

variable {n : Nat} {sel : Selection} (hp : sel.Placed n) (f : Nat → UInt8)
include hp

private theorem caret_le_of_placed : ∀ c ∈ sel.regions.map caret, c ≤ n :=
  List.forall_mem_map.mpr fun r hr ↦ (hp.inBounds r hr).1

private theorem exists_makes_overwrites : ∃ d : X.Delta,
    editItems (Ops.changeEdit fun r ↦ [f r.caret]) sel.regions n = some d ∧
      Makes d n (Splice.overwritesWith f (sel.regions.map caret)) := by
  obtain ⟨d, hd, hm⟩ := Ops.exists_delta (X := X) hp (fun r hr ↦ Ops.fits_changeEdit hr _)
    (Ops.follow_changeEdit fun r ↦ [f r.caret])
  refine ⟨d, hd, ?_⟩
  rw [Splice.overwritesWith, List.map_map, ← List.filterMap_eq_map]
  exact hm

private theorem transform_carets {p : Nat} (hpn : p ≤ n) :
    Splice.transform n 0 (Splice.overwritesWith f (sel.regions.map caret)) p =
      Splice.behind (sel.regions.map caret) p :=
  Splice.transform_overwritesWith (pairwise_caret hp.sorted) (fun _ _ ↦ Nat.zero_le _)
    (caret_le_of_placed hp) (Nat.zero_le _) (.inl hpn)

private theorem carried_eq_written {r : SelRegion} (hr : r ∈ sel.regions) :
    carried n (Splice.overwritesWith f (sel.regions.map caret)) r = written sel.regions r := by
  obtain ⟨hc, ht⟩ := hp.inBounds r hr
  rw [carried, written, transform_carets hp f hc, transform_carets hp f ht]

private theorem carriedBack_eq_writtenBack {r : SelRegion} (hr : r ∈ sel.regions) :
    carriedBack n (Splice.overwritesWith f (sel.regions.map caret)) r =
      writtenBack sel.regions r := by
  obtain ⟨hc, ht⟩ := hp.inBounds r hr
  rw [carriedBack, writtenBack, transform_carets hp f hc, transform_carets hp f ht]

omit hp in
private theorem removes_overwritesWith (x : Nat) :
    Splice.Removes (Splice.overwritesWith f (sel.regions.map caret)) x ↔
      CaretAt sel.regions x := by
  rw [← Ops.removes_change sel.regions (fun r ↦ [f r.caret]), Splice.overwritesWith, List.map_map,
    ← List.filterMap_eq_map]
  rfl

/-- Writing over the bytes joins the regions that deleting them would join. -/
theorem clashOn_written_iff : ClashOn Touch Opposed (sel.regions.map (written sel.regions)) ↔
    ClashOn DeleteJoins DeleteOpposed sel.regions := by
  obtain ⟨d, -, hm⟩ := exists_makes_overwrites (X := XiRope.reference UInt8) hp fun _ ↦ 0
  rw [← clashOn_carried_iff_delete hm hp.sorted hp.inBounds fun x _ ↦ removes_overwritesWith _ x,
    List.map_congr_left fun r hr ↦ (carried_eq_written hp _ hr).symm]

/-- The same where the carets are set back onto the bytes written. -/
theorem clashOn_writtenBack_iff :
    ClashOn Touch Opposed (sel.regions.map (writtenBack sel.regions)) ↔
      ClashOn HalfJoins HalfOpposed sel.regions := by
  obtain ⟨d, -, hm⟩ := exists_makes_overwrites (X := XiRope.reference UInt8) hp fun _ ↦ 0
  have hedit : ∀ r ∈ sel.regions, ∃ e ∈ Splice.overwritesWith (fun _ ↦ (0 : UInt8))
      (sel.regions.map caret), e.start = r.caret ∧ e.text.length = 1 := fun r hr ↦
    ⟨_, List.mem_map_of_mem (List.mem_map_of_mem hr), rfl, rfl⟩
  rw [← clashOn_carriedBack_iff_half hm hp.sorted hp.inBounds hedit fun x _ ↦
      removes_overwritesWith _ x,
    List.map_congr_left fun r hr ↦ (carriedBack_eq_writtenBack hp _ hr).symm]

end Carried

/-! ## The edits of a buffer -/

namespace CurrentBuffer

variable {b : CurrentBuffer X} (hp : b.selection.Placed b.data.length)
include hp

/-- At most one byte is added at the end. -/
theorem behind_length_le :
    Splice.behind (b.selection.regions.map caret) b.data.length ≤ b.data.length + 1 := by
  by_contra hlt
  have hmem : b.data.length + 1 ∈ b.selection.regions.map caret :=
    Splice.mem_of_lt_behind (Nat.le_succ _) (Nat.not_le.mp hlt)
  obtain ⟨r, hr, heq⟩ := List.mem_map.mp hmem
  have := (hp.inBounds r hr).1
  omega

variable (hne : b.selection.regions ≠ [])
include hne

/-- There is a byte after carets have been written over. -/
theorem behind_length_pos :
    0 < Splice.behind (b.selection.regions.map caret) b.data.length := by
  obtain ⟨r, hr⟩ := List.exists_mem_of_ne_nil _ hne
  have h1 := lt_behind_caret hp.sorted hr
  have h2 := Splice.behind_mono (pairwise_caret hp.sorted) (hp.inBounds r hr).1
  omega

private theorem exists_write (f : Nat → UInt8) : ∃ d : X.Delta,
    editItems (Ops.changeEdit fun r ↦ [f r.caret]) b.selection.regions b.data.length = some d ∧
    (∀ i, (X.apply d b.data)[i]? =
      if CaretAt b.selection.regions i then some (f i) else b.data[i]?) ∧
    (X.apply d b.data).length = Splice.behind (b.selection.regions.map caret) b.data.length ∧
    b.selection.applyDelta X d b.data.length =
      b.selection.mapRegions (fun r ↦ [written b.selection.regions r]) ∧
    (b.data.length + 1 < 2 ^ 63 →
      b.selection.applyDeltaOffsetCarets X d (-1) 0 b.data.length =
        b.selection.mapRegions fun r ↦ [writtenBack b.selection.regions r]) := by
  have hcs := pairwise_caret hp.sorted
  have hn := caret_le_of_placed hp
  have hpos := behind_length_pos hp hne
  obtain ⟨d, hd, hm⟩ := exists_makes_overwrites (X := X) hp f
  refine ⟨d, hd, fun i ↦ ?_, ?_, ?_, fun hlen ↦ ?_⟩
  · rw [hm.apply b.data rfl, Splice.getElem?_apply_overwritesWith hcs (fun _ _ ↦ Nat.zero_le _) hn,
      Nat.zero_add]
    exact if_congr List.mem_map rfl rfl
  · rw [hm.length_apply rfl, transform_carets hp f (Nat.le_refl _)]
  · rw [hm.applyDelta_eq, transform_carets hp f (Nat.le_refl _), if_neg (Nat.ne_of_gt hpos)]
    exact Selection.mapRegions_congr fun r hr ↦ by rw [carried_eq_written hp f hr]
  · have hle := behind_length_le hp
    rw [hm.applyDeltaOffsetCarets_eq, transform_carets hp f (Nat.le_refl _),
      if_neg (Nat.ne_of_gt hpos)]
    · exact Selection.mapRegions_congr fun r hr ↦ by rw [carriedBack_eq_writtenBack hp f hr]
    · rw [transform_carets hp f (Nat.le_refl _)]
      omega
    · intro r hr
      have := lt_behind_caret hp.sorted hr
      rw [transform_carets hp f (hp.inBounds r hr).1]
      omega

/-- Writing one byte over those under the carets. -/
theorem change_carets (hlen : b.data.length < 2 ^ 63) (x : UInt8) : ∃ d : X.Delta,
    Ops.change X b.data b.selection [x] = some d ∧
    (∀ i, (X.apply d b.data)[i]? =
      if CaretAt b.selection.regions i then some x else b.data[i]?) ∧
    (X.apply d b.data).length = Splice.behind (b.selection.regions.map caret) b.data.length ∧
    (b.applyIncompleteDelta d).map Prod.fst =
      (b.selection.mapRegions fun r ↦ [written b.selection.regions r]).map fun sel ↦
        { b.applyDeltaToCurrentBuffer d false with selection := sel } := by
  obtain ⟨d, hd, hdata, hlength, hsel, -⟩ := exists_write hp hne fun _ ↦ x
  refine ⟨d, by rw [Ops.change_eq hp.inBounds hlen, hd], hdata, hlength, ?_⟩
  rw [applyIncompleteDelta, map_fst_applyWith, hsel]

/-- Writing half a byte into those under the carets, and setting the carets back onto them. -/
theorem overwriteHalf_carets (hlen : b.data.length + 1 < 2 ^ 63) {top : UInt8}
    (ht : top % 16 = 0) : ∃ d : X.Delta,
    Ops.overwriteHalf X b.data b.selection top = some d ∧
    (∀ i, (X.apply d b.data)[i]? = if CaretAt b.selection.regions i
      then some (Ops.withUpperHalf top (b.data[i]?.getD 0)) else b.data[i]?) ∧
    (X.apply d b.data).length = Splice.behind (b.selection.regions.map caret) b.data.length ∧
    (b.applyIncompleteDeltaOffsetCarets d (-1) 0).map Prod.fst =
      (b.selection.mapRegions fun r ↦ [writtenBack b.selection.regions r]).map fun sel ↦
        { b.applyDeltaToCurrentBuffer d false with selection := sel } := by
  obtain ⟨d, hd, hdata, hlength, -, hsel⟩ :=
    exists_write hp hne fun c ↦ Ops.withUpperHalf top (b.data[c]?.getD 0)
  have htext : Ops.overwrittenHalf b.data top =
      fun r ↦ [Ops.withUpperHalf top (b.data[r.caret]?.getD 0)] := by
    funext r
    rw [Ops.overwrittenHalf, ← Ops.and_or_eq_withUpperHalf ht]
    cases b.data[r.caret]? <;> rfl
  refine ⟨d, by rw [Ops.overwriteHalf_eq hp.inBounds (by omega), htext, hd], hdata, hlength, ?_⟩
  rw [applyIncompleteDeltaOffsetCarets, map_fst_applyWith, hsel hlen]

end CurrentBuffer

end Tofu
