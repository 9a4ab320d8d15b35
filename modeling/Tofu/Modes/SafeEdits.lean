import Tofu.Modes.DeletePaste
import Tofu.Modes.InsertEdits
import Tofu.Modes.Pieces
import Tofu.Modes.WidthSplit
import Tofu.Selection.Moves

/-!
# Changes that do not panic

Of the changes that the modes make to a buffer: which of them panic, and that the others leave
a valid selection in the data. Regions that are mapped one by one panic only where
`SelRegion::merge` is handed regions that point different ways, a split only where its pieces
have no bytes; deleting, replacing and pasting never do.
-/

namespace Tofu

open Rope Selection

variable {X : XiRope UInt8}

/-! ## Regions mapped one by one -/

namespace Selection

variable {sel : Selection} {g : SelRegion → SelRegion}

/-- Regions of which none points forward, or none backward, can be merged. -/
theorem isSome_mapRegions_of_oneWay (hn : (sel.regions.map g).Pairwise NotBehind)
    (h : (∀ r ∈ sel.regions, ¬ (g r).StrictForward) ∨
      ∀ r ∈ sel.regions, ¬ (g r).StrictBackward) : (sel.mapRegions fun r ↦ [g r]).isSome := by
  rw [isSome_mapRegions_iff hn]
  intro hclash
  obtain ⟨a, ha, b, hb, hopposed⟩ := hclash.exists_mem
  obtain ⟨r, hr, rfl⟩ := List.mem_map.mp ha
  obtain ⟨s, hs, rfl⟩ := List.mem_map.mp hb
  rcases h with h | h
  · exact hopposed.elim (fun ho ↦ h r hr ho.1) fun ho ↦ h s hs ho.2
  · exact hopposed.elim (fun ho ↦ h s hs ho.2) fun ho ↦ h r hr ho.1

/-- Cursors in order can be merged. -/
theorem isSome_mapRegions_cursors (loc : SelRegion → Nat)
    (hs : sel.regions.Pairwise fun r s ↦ loc r ≤ loc s)
    (hg : ∀ r, g r = SelRegion.new (loc r) (loc r)) :
    (sel.mapRegions fun r ↦ [g r]).isSome := by
  obtain rfl : g = fun r ↦ SelRegion.new (loc r) (loc r) := funext hg
  refine isSome_mapRegions_of_oneWay (List.pairwise_map.mpr (hs.imp fun h ↦ ?_)) (.inl ?_)
  · simpa [NotBehind] using h
  · intro r _
    simp [SelRegion.StrictForward]

/-- Regions that stay apart need no merging. -/
theorem isSome_mapRegions_of_before (h : (sel.regions.map g).Pairwise Before) :
    (sel.mapRegions fun r ↦ [g r]).isSome := by
  rw [isSome_mapRegions_iff (h.imp Before.notBehind)]
  exact not_clashOn_of_isChain (h.imp not_touch_iff_before.mpr).isChain

/-- So do regions that keep their ends. -/
theorem isSome_mapRegions_of_ends (hs : sel.regions.Pairwise Before)
    (h : ∀ r, (g r).min = r.min ∧ (g r).max = r.max) :
    (sel.mapRegions fun r ↦ [g r]).isSome := by
  refine isSome_mapRegions_of_before (List.pairwise_map.mpr (hs.imp fun {a b} hab ↦ ?_))
  rw [Before, (h a).2, (h b).1]
  exact hab

/-- Regions that are extended to points in their order clash where two tails surround one. -/
theorem mapRegions_toward_eq_none_iff (loc : SelRegion → Nat) (hs : sel.regions.Pairwise Before)
    (hg : ∀ r, g r = SelRegion.new (loc r) r.tail)
    (hm : ∀ r ∈ sel.regions, ∀ s ∈ sel.regions, r.caret ≤ s.caret → loc r ≤ loc s) :
    (sel.mapRegions fun r ↦ [g r]) = none ↔
      ∃ r ∈ sel.regions, ∃ s ∈ sel.regions, Surrounds loc r s := by
  rw [← mapSelections_toward_eq_none_iff loc hs hm, mapSelections_pure, Option.map_eq_none_iff]
  simp only [hg]

end Selection

namespace RegionMap

open SelRegion

/-- Offsets lie in a buffer of length `n`, sizes are that of the buffer, and no sum comes near
the end of the signed word. -/
def InRange (n : Nat) : RegionMap → Prop
  | .jumpTo offset | .extendTo offset => offset ≤ n
  | .move _ bytesPerLine maxSize count | .extend _ bytesPerLine maxSize count =>
    maxSize = n ∧ 1 ≤ bytesPerLine ∧ bytesPerLine < 2 ^ 63 ∧ bytesPerLine * count + n < 2 ^ 63
  | .append bytesPerLine maxSize | .insertMove _ bytesPerLine maxSize _ =>
    maxSize = n ∧ 1 ≤ bytesPerLine ∧ bytesPerLine + n < 2 ^ 63
  | .boundary _ _ bytesPerLine maxSize => maxSize = n ∧ bytesPerLine + n < 2 ^ 63
  | .toBackward | .swapCaret | .collapse => True

/-- The regions that an extension to a common point makes meet between their tails. -/
def Clashes (f : RegionMap) (regions : List SelRegion) : Prop :=
  match f with
  | .extendTo offset => (∃ r ∈ regions, r.tail < offset) ∧ ∃ s ∈ regions, offset < s.tail
  | .boundary m direction bytesPerLine maxSize => m.extend = true ∧ 0 < maxSize ∧
    ∃ r ∈ regions, ∃ s ∈ regions,
      Surrounds (fun r ↦ boundaryCaret direction bytesPerLine maxSize r.caret) r s
  | _ => False

variable {f : RegionMap} {n : Nat} {sel : Selection}

private theorem InRange.staysIn (h : f.InRange n) : f.StaysIn n := by
  have hcount {bytesPerLine count : Nat} (hb : 1 ≤ bytesPerLine)
      (h : bytesPerLine * count + n < 2 ^ 63) : count < 2 ^ 63 := by
    have := Nat.le_mul_of_pos_left count hb
    omega
  cases f with
  | jumpTo | extendTo => exact h
  | move | extend => exact ⟨h.1, h.2.2.1, fun _ ↦ hcount h.2.1 h.2.2.2⟩
  | append | insertMove =>
    obtain ⟨h, -, hlt⟩ := h
    exact ⟨h, by omega⟩
  | boundary => exact ⟨h.1, by have := h.2; omega⟩
  | toBackward | swapCaret | collapse => trivial

private theorem InRange.fits (h : f.InRange n) {r : SelRegion} (hr : r.InBounds n) : f.Fits r := by
  have hmax := (inBounds_iff_max_le n r).mp hr
  have hcaret := hr.1
  cases f with
  | append bytesPerLine maxSize =>
    obtain ⟨-, -, hlt⟩ := h
    show r.max + 1 < 2 ^ 64
    omega
  | extend direction bytesPerLine maxSize count =>
    obtain ⟨-, hb, hlt, hsum⟩ := h
    have := Nat.le_mul_of_pos_left count hb
    cases direction with
    | up => exact ⟨hlt, by omega, by omega⟩
    | down =>
      show r.caret + bytesPerLine * count < 2 ^ 64
      omega
    | left => exact ⟨by omega, by omega⟩
    | right =>
      show r.caret + count < 2 ^ 64
      omega
  | boundary mode direction bytesPerLine maxSize =>
    obtain ⟨-, hsum⟩ := h
    intro _
    omega
  | jumpTo | extendTo | toBackward | move | swapCaret | collapse | insertMove => trivial

private theorem pairwise_movedCaret (hp : sel.Placed n) (direction : Direction)
    {bytesPerLine count : Nat} (hb : 1 ≤ bytesPerLine) (hc : bytesPerLine * count + n < 2 ^ 63) :
    sel.regions.Pairwise fun r s ↦ movedCaret direction bytesPerLine n count r.caret ≤
      movedCaret direction bytesPerLine n count s.caret :=
  hp.sorted.imp_of_mem fun _ hs h ↦ (shiftsIn_movedCaret direction hb hc).mono
    (Nat.le_of_lt h.caret_lt) (hp.inBounds _ hs).1

private theorem isSome_mapRegions_append (hp : sel.Placed n) {bytesPerLine : Nat}
    (hlt : bytesPerLine + n < 2 ^ 63) :
    (sel.mapRegions fun r ↦ [apply (.append bytesPerLine n) r]).isSome := by
  by_cases hz : n = 0
  · refine isSome_mapRegions_of_ends hp.sorted fun r ↦ ?_
    have := r.min_le_max
    simp only [apply, Normal.appended, simpleExtend, if_pos hz, toForward, min_new, max_new]
    omega
  · have happly : ∀ r ∈ sel.regions, apply (.append bytesPerLine n) r =
        SelRegion.new (min n (r.max + 1)) r.min := by
      intro r hr
      have := (inBounds_iff_max_le _ r).mp (hp.inBounds r hr)
      simp only [apply, Normal.appended, simpleExtend, if_neg hz, toForward, caret_new, tail_new,
        movedCaret, usizeAdd_of_lt (show r.max + 1 < 2 ^ 64 by omega)]
    refine isSome_mapRegions_of_oneWay (List.pairwise_map.mpr
      (hp.sorted.imp_of_mem fun {a b} ha hb hab ↦ ?_)) (.inr fun r hr ↦ ?_)
    · have hmax := (inBounds_iff_max_le _ a).mp (hp.inBounds a ha)
      have hmin := hab.notBehind
      have ha' := a.min_le_max
      have hb' := b.min_le_max
      rw [NotBehind, happly a ha, happly b hb]
      simp only [NotBehind, min_new, max_new] at hmin ⊢
      omega
    · have hmax := (inBounds_iff_max_le _ r).mp (hp.inBounds r hr)
      have := r.min_le_max
      rw [happly r hr, StrictBackward, caret_new, tail_new]
      omega

private theorem isSome_mapRegions_insertMove (hp : sel.Placed n) (direction : Direction)
    {bytesPerLine : Nat} (hb : 1 ≤ bytesPerLine) (hc : bytesPerLine + n < 2 ^ 63)
    (isHexHalf : Bool) :
    (sel.mapRegions fun r ↦ [apply (.insertMove direction bytesPerLine n isHexHalf) r]).isSome := by
  have hline : bytesPerLine * 1 + n < 2 ^ 63 := by omega
  by_cases hz : n = 0
  · exact isSome_mapRegions_of_ends hp.sorted fun r ↦ by simp [apply, Insert.moved, simpleMove, hz]
  · have hmoved := pairwise_movedCaret hp direction hb hline
    cases isHexHalf with
    | false => exact isSome_mapRegions_cursors _ hmoved fun r ↦ if_neg hz
    | true =>
      -- with a pending half the caret goes back by one
      refine isSome_mapRegions_cursors (fun r ↦ movedCaret .left bytesPerLine n 1
        (movedCaret direction bytesPerLine n 1 r.caret)) ?_ fun r ↦ ?_
      · refine hmoved.imp_of_mem fun _ hs h ↦ ?_
        exact (shiftsIn_movedCaret .left hb hline).mono h
          ((shiftsIn_movedCaret direction hb hline).le (hp.inBounds _ hs).1)
      · simp only [apply, Insert.moved, simpleMove, if_neg hz, if_true, caret_new]

private theorem mapRegions_boundary_eq_none_iff (hp : sel.Placed n) {m : JumpTo}
    {direction : Direction} {bytesPerLine : Nat}
    (hfits : ∀ s ∈ sel.regions, LineFits direction bytesPerLine s.caret) :
    (sel.mapRegions fun r ↦ [apply (.boundary m direction bytesPerLine n) r]) = none ↔
      Clashes (.boundary m direction bytesPerLine n) sel.regions := by
  by_cases hz : n = 0
  · refine iff_of_false (Option.isSome_iff_ne_none.mp (isSome_mapRegions_of_ends hp.sorted
      fun r ↦ ?_)) fun h ↦ absurd h.2.1 (by omega)
    simp [apply, JumpTo.moved, extendToBoundary, jumpToBoundary, hz]
  · have hmono (r s : SelRegion) (hs : s ∈ sel.regions) (h : r.caret ≤ s.caret) :=
      boundaryCaret_mono n (hfits s hs) h
    cases hm : m.extend with
    | true =>
      refine (mapRegions_toward_eq_none_iff _ hp.sorted (fun r ↦ ?_)
        fun r _ s hs ↦ hmono r s hs).trans ?_
      · simp only [apply, JumpTo.moved, hm, if_true, extendToBoundary, if_neg hz]
      · exact ⟨fun h ↦ ⟨hm, by omega, h⟩, fun h ↦ h.2.2⟩
    | false =>
      refine iff_of_false (Option.isSome_iff_ne_none.mp (isSome_mapRegions_cursors _
        (hp.sorted.imp_of_mem fun _ hs h ↦ hmono _ _ hs (Nat.le_of_lt h.caret_lt)) fun r ↦ ?_))
        fun h ↦ absurd (hm.symm.trans h.1) (by decide)
      simp only [apply, JumpTo.moved, hm, Bool.false_eq_true, if_false, jumpToBoundary, if_neg hz]

/-- A closure that gives each region one region panics on a clash only. -/
theorem mapRegions_eq_none_iff (hp : sel.Placed n) (hf : f.InRange n) :
    (sel.mapRegions fun r ↦ [f.apply r]) = none ↔ f.Clashes sel.regions := by
  have hsome (h : (sel.mapRegions fun r ↦ [f.apply r]).isSome) (hc : ¬ f.Clashes sel.regions) :
      (sel.mapRegions fun r ↦ [f.apply r]) = none ↔ f.Clashes sel.regions :=
    iff_of_false (Option.isSome_iff_ne_none.mp h) hc
  cases f with
  | jumpTo offset =>
    refine hsome (isSome_mapRegions_cursors (fun _ ↦ offset) ?_ fun _ ↦ rfl) id
    exact List.pairwise_of_forall fun _ _ ↦ Nat.le_refl offset
  | extendTo offset =>
    exact (mapRegions_toward_eq_none_iff (fun _ ↦ offset) hp.sorted (fun _ ↦ rfl)
      fun _ _ _ _ _ ↦ Nat.le_refl _).trans surrounds_const_iff
  | toBackward =>
    refine hsome (isSome_mapRegions_of_ends hp.sorted fun r ↦ ?_) id
    have := r.min_le_max
    simp only [apply, SelRegion.toBackward, min_new, max_new]
    omega
  | swapCaret =>
    refine hsome (isSome_mapRegions_of_ends hp.sorted fun r ↦ ?_) id
    simp only [apply, SelRegion.swapCaret, min_new, max_new]
    exact ⟨Nat.min_comm _ _, Nat.max_comm _ _⟩
  | collapse =>
    have hcarets : sel.regions.Pairwise fun r s ↦ r.caret ≤ s.caret :=
      hp.sorted.imp fun h ↦ Nat.le_of_lt h.caret_lt
    exact hsome (isSome_mapRegions_cursors _ hcarets fun _ ↦ rfl) id
  | append bytesPerLine maxSize =>
    obtain ⟨rfl, -, hlt⟩ := hf
    exact hsome (isSome_mapRegions_append hp hlt) id
  | move direction bytesPerLine maxSize count =>
    obtain ⟨rfl, hb, -, hc⟩ := hf
    by_cases hz : maxSize = 0
    · exact hsome (isSome_mapRegions_of_ends hp.sorted fun r ↦ by simp [apply, simpleMove, hz]) id
    · exact hsome (isSome_mapRegions_cursors _ (pairwise_movedCaret hp direction hb hc)
        fun r ↦ if_neg hz) id
  | extend direction bytesPerLine maxSize count =>
    obtain ⟨rfl, hb, -, hc⟩ := hf
    by_cases hz : maxSize = 0
    · exact hsome (isSome_mapRegions_of_ends hp.sorted fun r ↦ by simp [apply, simpleExtend, hz]) id
    · obtain ⟨sel', hsel, -⟩ := mapsSafely_carets hp (shiftsIn_movedCaret direction hb hc)
      rw [mapSelections_pure] at hsel
      obtain ⟨sel', hsel, -⟩ := Option.map_eq_some_iff.mp hsel
      refine hsome ?_ id
      simp only [apply, simpleExtend, if_neg hz, hsel]
      rfl
  | boundary m direction bytesPerLine maxSize =>
    have hfits (s : SelRegion) (hs : s ∈ sel.regions) : LineFits direction bytesPerLine s.caret :=
      hf.fits (hp.inBounds s hs)
    obtain ⟨rfl, -⟩ := hf
    exact mapRegions_boundary_eq_none_iff hp hfits
  | insertMove direction bytesPerLine maxSize isHexHalf =>
    obtain ⟨rfl, hb, hc⟩ := hf
    exact hsome (isSome_mapRegions_insertMove hp direction hb hc isHexHalf) id

end RegionMap

/-! ## Changes to a buffer -/

namespace CurrentBuffer

variable {b : CurrentBuffer X} (hv : b.selection.Valid) (hp : b.selection.Placed b.data.length)
  (hn : b.data.length < 2 ^ 62)
include hv hp

/-- Mapping the regions panics where the mapped ones meet from opposite sides. -/
theorem region_safe (hword : b.data.length < 2 ^ 63) {f : RegionMap}
    (hf : f.InRange b.data.length) :
    SafeUnless (f.Clashes b.selection.regions)
      (b.mapSelections (pureClosure fun r ↦ [f.apply r]) ()) := by
  constructor
  · rw [map_fst_mapSelections_pure, Option.map_eq_none_iff, RegionMap.mapRegions_eq_none_iff hp hf]
  · intro b' hb'
    rw [map_fst_mapSelections_pure] at hb'
    obtain ⟨sel, hsel, rfl⟩ := Option.map_eq_some_iff.mp hb'
    have hvalid := RegionMap.valid_mapRegions hv (fun r hr ↦ hf.fits (hp.inBounds r hr)) hsel
    refine ⟨hvalid, hvalid.sorted, inBounds_mapRegions hsel fun r hr s hs ↦ ?_⟩
    obtain rfl := List.mem_singleton.mp hs
    exact RegionMap.inBounds_apply hword hf.staysIn (hp.inBounds r hr)

/-- Cutting the regions panics for the width zero only, if the pieces fit a word. -/
theorem width_safe {step : Nat}
    (hf : step = 0 ∨ ∀ r ∈ b.selection.regions, Split.WidthFits step r) :
    SafeUnless (step = 0) (b.mapSelections (Split.widthClosure step) ()) := by
  rcases Nat.eq_zero_or_pos step with rfl | hpos
  · have hnone : b.selection.mapSelections (Split.widthClosure 0) () = none := by
      obtain ⟨r, regions, hr⟩ := List.exists_cons_of_ne_nil hv.nonempty
      rw [Selection.mapSelections_eq, hr]
      rfl
    have hmap := b.map_fst_mapSelections (Split.widthClosure 0) ()
    rw [hnone, Option.map_none] at hmap
    exact ⟨iff_of_true hmap rfl, fun b' hb' ↦ by rw [hmap] at hb'; cases hb'⟩
  · have hfits := hf.resolve_left (by omega)
    have hdivides : ∀ r ∈ b.selection.regions, Divides r (Split.pieces step r) := fun r hr ↦
      Split.divides_pieces (hfits r hr).cutsFit
    obtain ⟨hsome, hvalid⟩ := hv.mapRegions_divides hdivides
    have hmap : (b.mapSelections (Split.widthClosure step) ()).map Prod.fst =
        (b.selection.mapRegions (Split.pieces step)).map fun sel ↦ { b with selection := sel } := by
      rw [map_fst_mapSelections, ← SelStep.map_snd_widthClosure hpos, Option.map_map]
      rfl
    constructor
    · rw [hmap, Option.map_eq_none_iff, ← Option.not_isSome_iff_eq_none, hsome]
      obtain ⟨r, regions, hr⟩ := List.exists_cons_of_ne_nil hv.nonempty
      refine iff_of_false (not_not.mpr ⟨r, ?_, ?_⟩) (by omega)
      · rw [hr, List.take_succ_cons]
        exact List.mem_cons_self
      · simp [Split.pieces]
    · intro b' hb'
      rw [hmap] at hb'
      obtain ⟨sel, hsel, rfl⟩ := Option.map_eq_some_iff.mp hb'
      have hvalid := hvalid sel hsel
      refine ⟨hvalid, hvalid.sorted, inBounds_mapRegions hsel fun r hr s hs ↦ ?_⟩
      rw [SelRegion.inBounds_iff_max_le]
      exact Nat.le_trans ((hdivides r hr).inside s hs).2
        ((SelRegion.inBounds_iff_max_le _ r).mp (hp.inBounds r hr))

/-- Where whole regions are replaced, nothing is left that points anywhere. -/
theorem regions_safe (text : SelRegion → List UInt8) :
    SafeUnless False ((editItems (fun r ↦ some ⟨r.min, r.max + 1, text r⟩) b.selection.regions
      b.data.length).bind b.applyDelta) := by
  obtain ⟨d, hd, hm⟩ := Ops.exists_delta (X := X) hp (fun r hr ↦ Ops.fits_regionEdit hr text)
    (Ops.follow_regionEdit text)
  rw [hd, Option.bind_some]
  obtain ⟨hnone, hplaced⟩ := hm.applyDelta_update hv
  refine safe_applyWith hm true ⟨hnone.trans (iff_false_intro fun hclash ↦ ?_), hplaced⟩
  obtain ⟨_, ha, _, -, hopposed⟩ := hclash.exists_mem
  obtain ⟨r, hr, rfl⟩ := List.mem_map.mp ha
  have hremoved : ∀ x, r.min ≤ x → x ≤ r.max → Splice.Removes (b.selection.regions.filterMap
      fun r ↦ some ⟨r.min, r.max + 1, text r⟩) x := fun x h1 h2 ↦
    ⟨_, List.mem_filterMap.mpr ⟨r, hr, rfl⟩, h1, Nat.lt_succ_of_le h2⟩
  have hmin := r.min_le_tail
  have hmin' := r.min_le_caret
  have hmax := r.tail_le_max
  have hmax' := r.caret_le_max
  rcases hopposed with ⟨hforward, -⟩ | ⟨hbackward, -⟩
  · obtain ⟨x, h1, h2, hkept⟩ := (strictForward_carried_iff hm (hp.inBounds r hr)).mp hforward
    exact hkept (hremoved x (by omega) (by omega))
  · obtain ⟨x, h1, h2, hkept⟩ := (strictBackward_carried_iff hm (hp.inBounds r hr)).mp hbackward
    exact hkept (hremoved x (by omega) (by omega))

include hn

/-- A deletion never panics. -/
theorem deletion_safe :
    SafeUnless False ((Ops.deletion X b.data b.selection).bind b.applyDelta) := by
  rw [Ops.deletion_eq hp.inBounds (by omega)]
  exact regions_safe hv hp fun _ ↦ []

/-- A replacement never panics. -/
theorem replace_safe (ch : UInt8) :
    SafeUnless False ((Ops.replace X b.data b.selection ch).bind b.applyDelta) := by
  rw [Ops.replace_eq hp.inBounds (by omega)]
  exact regions_safe hv hp fun r ↦ List.replicate (r.max - r.min + 1) ch

/-- Pasting from a register that is not empty never panics. -/
theorem paste_safe {registerContents : List (List UInt8)} (hne : registerContents ≠ [])
    (after : Bool) (count : Nat) :
    SafeUnless False ((Ops.paste X b.data b.selection registerContents after count).bind
      b.applyDelta) := by
  obtain ⟨lastValue, hlast⟩ : ∃ lastValue, registerContents.getLast? = some lastValue :=
    Option.isSome_iff_exists.mp (by simpa using hne)
  rw [Ops.paste_eq hp.inBounds (by omega), hlast, Option.bind_some]
  set items := Ops.pasteItems b.selection.regions registerContents lastValue with hitems
  have hfst : items.map Prod.fst = b.selection.regions := by
    rw [hitems, Ops.pasteItems, List.map_fst_zip]
    rw [List.length_append, List.length_replicate]
    exact Nat.le_add_left ..
  have hsorted : items.Pairwise fun a b ↦ Before a.1 b.1 := by
    rw [← List.pairwise_map (f := Prod.fst) (R := Before), hfst]
    exact hp.sorted
  have hfit : ∀ item ∈ items, Ops.Fits (Ops.pasteEdit b.data.length count after) b.data.length
      item := fun item hi ↦
    Ops.fits_pasteEdit (hp.inBounds item.1 (hfst ▸ List.mem_map_of_mem hi)) count after item.2
  obtain ⟨d, hd⟩ := Option.isSome_iff_exists.mp (isSome_editItems (X := X) (n := b.data.length)
    hsorted (Ops.follow_pasteEdit b.data.length count after) fun item hi e he ↦
      (hfit item hi e he).1)
  have hm := editItems_makes hd hfit
  rw [hd, Option.bind_some]
  obtain ⟨hnone, hplaced⟩ := hm.applyDelta_update hv
  refine safe_applyWith hm true ⟨hnone.trans (iff_false_intro ?_), hplaced⟩
  refine not_clashOn_carried_of_kept hm hp.sorted hp.inBounds fun x _ ↦ ?_
  rintro ⟨e, he, h1, h2⟩
  obtain ⟨item, -, ⟨rfl⟩⟩ := List.mem_filterMap.mp he
  exact absurd h2 (Nat.not_lt.mpr h1)

omit hv hp hn in
private theorem modifySelsInPlace_safe {f : Selection → Option Selection} {sel : Selection}
    (hf : f b.selection = some sel) (hvalid : sel.Valid)
    (hin : ∀ r ∈ sel.regions, r.InBounds b.data.length) :
    SafeUnless False (b.modifySelsInPlace f) := by
  rw [modifySelsInPlace, hf]
  refine ⟨by simp, fun b' hb' ↦ ?_⟩
  obtain rfl := Option.some.inj hb'
  exact ⟨hvalid, hvalid.sorted, hin⟩

omit hn in
/-- Moving the main flag never panics. -/
theorem switchMainSel_safe {f : Selection → Option Selection} {sel : Selection}
    (hf : f b.selection = some sel) (hs : Switches b.selection sel) :
    SafeUnless False (b.switchMainSel f) := by
  have hvalid := hs.valid hv
  have hmain {sel : Selection} (h : sel.Valid) : ∃ r, sel.main = some r :=
    ⟨_, List.getElem?_eq_getElem h.main_lt⟩
  obtain ⟨old, hold⟩ := hmain hv
  obtain ⟨new, hnew⟩ := hmain hvalid
  have hswitch : b.switchMainSel f = some ({ b with selection := sel },
      .changeInPlace [old.interval, new.interval]) := by
    simp only [switchMainSel, hold, hf, hnew, Option.bind_eq_bind, Option.bind_some]
  rw [hswitch]
  refine ⟨by simp, fun b' hb' ↦ ?_⟩
  obtain rfl := Option.some.inj hb'
  exact ⟨hvalid, hvalid.sorted, hs.inBounds hp.inBounds⟩

omit hn in
/-- Removing a region does not panic where the main index stays in the list. -/
theorem removeSelection_safe {index : Nat}
    (hs : ¬ b.selection.Shifts (index % b.selection.len)) :
    SafeUnless False (b.removeSelection index) := by
  have hlt : index % b.selection.len < b.selection.len :=
    Nat.mod_lt _ (List.length_pos_iff.mpr hv.nonempty)
  obtain ⟨sel, hsel⟩ : ∃ sel, b.selection.remove (index % b.selection.len) = some sel := by
    unfold Selection.remove
    split
    · exact ⟨_, rfl⟩
    · exact ⟨_, if_pos hlt⟩
  exact modifySelsInPlace_safe hsel (hv.remove hlt hs hsel) (inBounds_remove hp.inBounds hsel)

omit hn in
/-- Keeping a single region never panics. -/
theorem retainSelection_safe (index : Nat) : SafeUnless False (b.retainSelection index) := by
  have hlt : index % b.selection.len < b.selection.regions.length :=
    Nat.mod_lt _ (List.length_pos_iff.mpr hv.nonempty)
  obtain ⟨sel, hsel⟩ : ∃ sel, b.selection.retain (index % b.selection.len) = some sel := by
    rw [Selection.retain, List.getElem?_eq_getElem hlt]
    exact ⟨_, rfl⟩
  exact modifySelsInPlace_safe hsel (Valid.retain hsel) (inBounds_retain hp.inBounds hsel)

omit hv in
/-- Yanking never panics and changes the registers only. -/
theorem exists_yankSelections (register : Char) :
    ∃ registers, b.yankSelections register = some { b with registers } := by
  by_cases hne : b.data = []
  · exact ⟨_, if_pos hne⟩
  · exact ⟨_, yankSelections_eq hp (by omega) rfl rfl hne register⟩

end CurrentBuffer

end Tofu
