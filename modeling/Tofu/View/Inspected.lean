import Tofu.Modes.Closures
import Tofu.View.Alignment
import Tofu.View.Painter

/-!
# The inspected bytes

The lines about the bytes at the main cursor are made from four of the visible bytes, when the
main region is among the regions in the visible range (`src/src/hex_view/view.rs:1262–1278,
1341–1357`). A region may reach into the range with its caret outside, and then the slice
panics. Every event but a resize moves the view to the caret, or makes the regions cursors,
before it draws; a resize draws right away (`view.rs:1402–1405`).
-/

namespace Tofu

open Rope

variable {X : XiRope UInt8}

namespace HexView

/-! ## Drawing -/

/-- The slice of four bytes from the caret on, `view.rs:1268–1276`. -/
def bytesFromCaret (startIndex : Nat) (visibleBytesCow : List UInt8) (region : SelRegion) :
    Option (List UInt8) :=
  let start := usizeSub region.caret startIndex
  let stop :=
    if usizeAdd start 4 > visibleBytesCow.length then visibleBytesCow.length
    else usizeAdd start 4
  checkedSlice visibleBytesCow start stop

/-- `view.rs:1249–1278` and `1329–1357`. -/
def currentBytes (v : HexView X) : Option (List UInt8) := do
  let b ← v.current
  let visible := v.visibleBytes b.data.length
  let visibleBytesCow ← sliceToCow b.data visible
  let regions ← b.selection.regionsInRange visible.start visible.stop
  match regions.find? SelRegion.isMain with
  | none => some []
  | some region => bytesFromCaret visible.start visibleBytesCow region

/-- What `draw` and `draw_rows` queue of the data, `view.rs:1249–1312` and `1324–1387`. -/
def printFrame (G : DrawEnv) (invalidatedRows : Option (List Nat)) (v : HexView X) :
    Option (List TermOp) := do
  let currentBytes ← v.currentBytes
  let b ← v.current
  let p ← v.drawData G invalidatedRows currentBytes
  let p ← v.drawRemaining G G.rounds p (v.firstEmptyRow (v.visibleBytes b.data.length))
  some p.ops

/-- Prints the rows, of which only the panics matter here. -/
def print (G : DrawEnv) : RowPrinter X := fun invalidatedRows v ↦
  (v.printFrame G invalidatedRows).map fun _ ↦ ()

/-- If the main region is among those in the visible range, its caret is not before it, and the
slice starts no later than it ends, within the visible bytes. -/
def InspectsInRange (v : HexView X) : Prop :=
  ∀ b ∈ v.current, ∀ visibleBytesCow ∈ sliceToCow b.data (v.visibleBytes b.data.length),
    ∀ regions ∈ b.selection.regionsInRange v.startOffset (v.visibleBytes b.data.length).stop,
      ∀ region ∈ regions.find? SelRegion.isMain,
        let start := region.caret - v.startOffset
        let stop := if start + 4 > visibleBytesCow.length then visibleBytesCow.length else start + 4
        v.startOffset ≤ region.caret ∧ start ≤ stop ∧ stop ≤ visibleBytesCow.length

instance (v : HexView X) : Decidable v.InspectsInRange :=
  inferInstanceAs (Decidable (∀ b ∈ v.current, _))

/-- Checks the bounds of the slice and prints nothing. -/
def checkBounds : RowPrinter X := fun _ v ↦ if v.InspectsInRange then some () else none

/-! ## Views that can be drawn -/

/-- The main region is off the screen, or its caret is on the screen or right behind it. -/
def MainShown (v : HexView X) : Prop :=
  ∀ b ∈ v.current, ∀ main ∈ b.selection.main,
    main.max < v.startOffset ∨ v.startOffset + (v.size.2 - 1) * 16 < main.min ∨
      v.startOffset ≤ main.caret ∧ main.caret ≤ v.startOffset + (v.size.2 - 1) * 16

instance (v : HexView X) : Decidable v.MainShown :=
  inferInstanceAs (Decidable (∀ b ∈ v.current, _))

/-- Lines of sixteen bytes, on a screen that has a row for each line about the bytes. -/
structure Screen (v : HexView X) : Prop where
  bytesPerLine : v.bytesPerLine = 16
  five : 5 ≤ v.size.2
  word : v.size.2 < 2 ^ 16

/-- The screen starts on a line, in the lower half of the address space. -/
structure Framed (v : HexView X) : Prop extends v.Screen where
  aligned : 16 ∣ v.startOffset
  near : v.startOffset < 2 ^ 63

end HexView

/-- The selection is valid and within the data. -/
structure CurrentBuffer.SelectsWithin (b : CurrentBuffer X) : Prop where
  valid : b.selection.Valid
  inBounds : ∀ r ∈ b.selection.regions, r.InBounds b.data.length

/-- More data keeps the selection within it. -/
theorem CurrentBuffer.SelectsWithin.append {b : CurrentBuffer X} (h : b.SelectsWithin)
    (chunk : List UInt8) :
    CurrentBuffer.SelectsWithin { b with data := b.data ++ chunk } where
  valid := h.valid
  inBounds r hr := (h.inBounds r hr).mono (by simp)

/-- There is a main region. -/
theorem CurrentBuffer.SelectsWithin.exists_main {b : CurrentBuffer X} (h : b.SelectsWithin) :
    ∃ main, b.selection.main = some main ∧ main ∈ b.selection.regions := by
  have hlt := h.valid.main_lt
  exact ⟨_, List.getElem?_eq_getElem hlt, List.getElem_mem hlt⟩

namespace HexView

section Draws

variable {v : HexView X} {b : CurrentBuffer X} {main : SelRegion}

private theorem bytesFromCaret_cases {startIndex : Nat} {visibleBytesCow : List UInt8}
    {region : SelRegion} (hstart : startIndex < 2 ^ 63) (hcaret : region.caret < 2 ^ 63)
    (hlen : visibleBytesCow.length < 2 ^ 63) :
    (startIndex ≤ region.caret ∧ region.caret ≤ startIndex + visibleBytesCow.length ∧
      ∃ bytes, bytesFromCaret startIndex visibleBytesCow region = some bytes ∧
        bytes.length ≤ 4) ∨
    (¬ (startIndex ≤ region.caret ∧ region.caret ≤ startIndex + visibleBytesCow.length) ∧
      bytesFromCaret startIndex visibleBytesCow region = none) := by
  rcases Nat.lt_or_ge region.caret startIndex with hlt | hge
  · -- The difference wraps around to a start behind every end.
    have hwrap : usizeSub region.caret startIndex = region.caret + 2 ^ 64 - startIndex := by
      unfold usizeSub
      omega
    refine .inr ⟨by omega, ?_⟩
    simp only [bytesFromCaret, checkedSlice, hwrap]
    rw [if_neg]
    unfold usizeAdd
    split <;> omega
  · have hsub : usizeSub region.caret startIndex = region.caret - startIndex := by
      unfold usizeSub
      omega
    have hadd : usizeAdd (region.caret - startIndex) 4 = region.caret - startIndex + 4 :=
      usizeAdd_of_lt (by omega)
    simp only [bytesFromCaret, checkedSlice, hsub, hadd]
    by_cases hin : region.caret ≤ startIndex + visibleBytesCow.length
    · refine .inl ⟨hge, hin, ?_⟩
      rw [if_pos (by split <;> omega)]
      refine ⟨_, rfl, ?_⟩
      rw [List.length_drop, List.length_take]
      split <;> omega
    · refine .inr ⟨by omega, ?_⟩
      rw [if_neg (by split <;> omega)]

private theorem mainShown_iff (hb : v.current = some b) (hm : b.selection.main = some main) :
    v.MainShown ↔ main.max < v.startOffset ∨ v.startOffset + (v.size.2 - 1) * 16 < main.min ∨
      v.startOffset ≤ main.caret ∧ main.caret ≤ v.startOffset + (v.size.2 - 1) * 16 := by
  simp only [MainShown, hb, Option.mem_def, Option.some.injEq, forall_eq', hm]

variable (hf : v.Framed) (hb : v.current = some b) (hs : b.SelectsWithin)
  (hlen : b.data.length < 2 ^ 63)
include hf hb hs hlen

omit hb in
private theorem exists_lookup (hm : b.selection.main = some main) :
    ∃ cow regions, sliceToCow b.data (v.visibleBytes b.data.length) = some cow ∧
      cow.length = min b.data.length (v.startOffset + (v.size.2 - 1) * 16) - v.startOffset ∧
      b.selection.regionsInRange v.startOffset (v.visibleBytes b.data.length).stop =
        some regions ∧
      regions.find? SelRegion.isMain =
        if v.startOffset ≤ main.max ∧ main.min ≤ v.startOffset + (v.size.2 - 1) * 16 then some main
        else none := by
  have hnear := hf.near
  have hword := hf.word
  have hin := hs.inBounds main (List.mem_of_getElem? hm)
  have hmin := (Nat.le_trans main.min_le_caret hin.1)
  have hstop := stop_visibleBytes hf.bytesPerLine (by omega) b.data.length
  have hstart : (v.visibleBytes b.data.length).start = v.startOffset := rfl
  have hnot : ¬ ∃ r ∈ b.selection.regions,
      (v.visibleBytes b.data.length).stop < r.min ∧ r.max < v.startOffset := by
    rintro ⟨r, hr, hlt, hmax⟩
    have hle := r.min_le_max
    have hdata := (SelRegion.inBounds_iff_max_le _ r).mp (hs.inBounds r hr)
    omega
  refine ⟨(b.data.drop v.startOffset).take ((v.visibleBytes b.data.length).stop - v.startOffset),
    b.selection.regions.filter fun r ↦
      decide (v.startOffset ≤ r.max ∧ r.min ≤ (v.visibleBytes b.data.length).stop), ?_, ?_, ?_, ?_⟩
  · rw [sliceToCow, if_neg (by omega), hstart]
  · rw [List.length_take, List.length_drop]
    omega
  · rw [Selection.regionsInRange_eq hs.valid, if_neg hnot]
  · rw [hs.valid.find?_isMain hm]
    have hiff : main.min ≤ (v.visibleBytes b.data.length).stop ↔
        main.min ≤ v.startOffset + (v.size.2 - 1) * 16 := by omega
    simp only [decide_eq_true_eq, hiff]

/-- The bounds hold exactly when the main region is shown. -/
theorem inspectsInRange_iff : v.InspectsInRange ↔ v.MainShown := by
  obtain ⟨main, hm, hmem⟩ := hs.exists_main
  obtain ⟨cow, regions, hcow, hlength, hregions, hfind⟩ := exists_lookup hf hs hlen hm
  have hin := hs.inBounds main hmem
  have hle := main.min_le_caret
  have hle' := main.caret_le_max
  rw [mainShown_iff hb hm]
  simp only [InspectsInRange, hb, Option.mem_def, Option.some.injEq, forall_eq', hcow, hregions,
    hfind]
  have hcaret := hin.1
  split
  · simp only [Option.some.injEq, forall_eq']
    split <;> omega
  · simp only [reduceCtorEq, false_implies, implies_true, true_iff]
    omega

/-- The slice is taken exactly when the main region is shown, and has at most four bytes. -/
theorem currentBytes_cases :
    (v.MainShown ∧ ∃ bytes, v.currentBytes = some bytes ∧ bytes.length ≤ 4) ∨
      (¬ v.MainShown ∧ v.currentBytes = none) := by
  obtain ⟨main, hm, hmem⟩ := hs.exists_main
  obtain ⟨cow, regions, hcow, hlength, hregions, hfind⟩ := exists_lookup hf hs hlen hm
  have hin := (hs.inBounds main hmem).1
  have hle := main.min_le_caret
  have hle' := main.caret_le_max
  have hnear := hf.near
  rw [mainShown_iff hb hm, currentBytes, hb]
  simp only [Option.bind_eq_bind, Option.bind_some, hcow]
  rw [show (v.visibleBytes b.data.length).start = v.startOffset from rfl, hregions,
    Option.bind_some, hfind]
  by_cases hfound : v.startOffset ≤ main.max ∧ main.min ≤ v.startOffset + (v.size.2 - 1) * 16
  · rw [if_pos hfound]
    rcases @bytesFromCaret_cases v.startOffset cow main (by omega) (by omega) (by omega) with
      ⟨hge, hle, hbytes⟩ | ⟨hoff, hnone⟩
    · exact .inl ⟨by omega, hbytes⟩
    · exact .inr ⟨by omega, hnone⟩
  · rw [if_neg hfound]
    exact .inl ⟨by omega, [], rfl, by decide⟩

private theorem print_iff (G : DrawEnv) (invalidatedRows : Option (List Nat)) :
    print G invalidatedRows v = some () ↔ v.MainShown := by
  have hnear := hf.near
  have hfive := hf.five
  have hword := hf.word
  have h16 := hf.bytesPerLine
  rcases currentBytes_cases hf hb hs hlen with ⟨hshown, bytes, hbytes, hfour⟩ | ⟨hnot, hnone⟩
  · refine iff_of_true ?_ hshown
    obtain ⟨p, hp⟩ := exists_drawData (G := G) (by omega) (by omega) (by omega) hlen hs.valid hb
      hs.inBounds (by rw [h16]; omega) hfour invalidatedRows
    obtain ⟨-, hfour', -⟩ := exists_of_drawData hb (by omega) hp
    obtain ⟨p', hp'⟩ := Option.isSome_iff_exists.mp
      (isSome_drawRemaining (G := G) (show v.bytesPerLine ≤ 21 by omega) G.rounds hfour'
        (v.firstEmptyRow (v.visibleBytes b.data.length)))
    simp only [print, printFrame, hbytes, hb, hp, hp', Option.bind_eq_bind, Option.bind_some,
      Option.map_some]
  · refine iff_of_false ?_ hnot
    simp only [print, printFrame, hnone, Option.bind_eq_bind, Option.bind_none, Option.map_none,
      reduceCtorEq, not_false_eq_true]

private theorem checkBounds_iff (invalidatedRows : Option (List Nat)) :
    checkBounds invalidatedRows v = some () ↔ v.MainShown := by
  rw [← inspectsInRange_iff hf hb hs hlen, checkBounds]
  split <;> simp [*]

end Draws

/-- Everything a drawing needs but that the main region is shown. -/
structure Drawable (v : HexView X) : Prop extends v.Framed where
  buffer : ∃ b, v.current = some b ∧ b.SelectsWithin ∧ b.data.length < 2 ^ 63

end HexView

/-- The painter prints a view exactly when the main region is shown. -/
def RowPrinter.Exact (paint : RowPrinter X) : Prop :=
  ∀ v : HexView X, v.Drawable → ∀ rows, (paint rows v = some () ↔ v.MainShown)

namespace HexView

private theorem exact_print (G : DrawEnv) : RowPrinter.Exact (print (X := X) G) := by
  intro v hv rows
  obtain ⟨b, hb, hs, hlen⟩ := hv.buffer
  exact print_iff hv.toFramed hb hs hlen G rows

private theorem exact_checkBounds : RowPrinter.Exact (checkBounds (X := X)) := by
  intro v hv rows
  obtain ⟨b, hb, hs, hlen⟩ := hv.buffer
  exact checkBounds_iff hv.toFramed hb hs hlen rows

/-- The view can be drawn. -/
structure Shown (v : HexView X) : Prop extends v.Drawable where
  main : v.MainShown

/-! ## Views that events draw -/

section Events

variable {fs : FileSystem} {height : Nat} {v v₁ v' : HexView X} {b : CurrentBuffer X}

/-- The screen stays with the size of the view. -/
theorem Screen.of_sameFrame (h : v.Screen) (hs : SameFrame v v') : v'.Screen where
  bytesPerLine := hs.bytesPerLine.trans h.bytesPerLine
  five := hs.size ▸ h.five
  word := hs.size ▸ h.word

/-- So does the frame, while the view does not scroll. -/
theorem Framed.of_eq (h : v.Framed) (hl : v'.bytesPerLine = v.bytesPerLine)
    (hsize : v'.size = v.size) (ho : v'.startOffset = v.startOffset) : v'.Framed where
  bytesPerLine := hl.trans h.bytesPerLine
  five := hsize ▸ h.five
  word := hsize ▸ h.word
  aligned := ho ▸ h.aligned
  near := ho ▸ h.near

private theorem shown_of_showsCursor (hf : v.Screen) (hb : v.current = some b)
    (hs : b.SelectsWithin)
    (hlen : b.data.length < 2 ^ 63) (hc : v.ShowsCursor) : v.Shown := by
  obtain ⟨main, hm, hmem⟩ := hs.exists_main
  have hin := (hs.inBounds main hmem).1
  obtain ⟨hd, hle, hlt⟩ :=
    (showsCursor_iff hb hm hin hf.bytesPerLine hf.word (by omega)).mp hc
  exact ⟨⟨⟨hf, hd, by omega⟩, b, hb, hs, hlen⟩,
    (mainShown_iff hb hm).mpr (.inr (.inr ⟨hle, by omega⟩))⟩

/-- A region of one offset is on the screen exactly when its caret is. -/
theorem shown_of_cursors (hf : v.Framed) (hb : v.current = some b) (hs : b.SelectsWithin)
    (hlen : b.data.length < 2 ^ 63) (hp : ∀ r ∈ b.selection.regions, r.caret = r.tail) :
    v.Shown := by
  obtain ⟨main, hm, hmem⟩ := hs.exists_main
  have hpoint := hp main hmem
  refine ⟨⟨hf, b, hb, hs, hlen⟩, (mainShown_iff hb hm).mpr ?_⟩
  unfold SelRegion.max SelRegion.min
  omega

section Cursor

variable (hf : v.Framed) (hb : v.current = some b) (hs : b.SelectsWithin)
  (ht : v'.trims = v.trims) (hlen : ∀ b ∈ v'.current, b.data.length < 2 ^ 63)
include hf hb hs ht hlen

/-- After a change in place the view is scrolled to the cursor and rows are drawn. -/
theorem shown_maybeUpdateOffset (hm : v.maybeUpdateOffset fs height = some v₁)
    (hd : v₁.drawRows fs = some v') : v₁.Shown ∧ v'.Shown := by
  have ha := Appends.steps (X := X) fs height
  have hframe := (SameFrame.steps fs height).maybeUpdateOffset hm
  have ht' : v'.trims = v₁.trims := trims_draw hd
  obtain ⟨chunk, hb₁⟩ := (ha.maybeUpdateOffset hm).current (ht'.symm.trans ht) b hb
  obtain ⟨more, hb'⟩ := (ha.draw hd).current ht' _ hb₁
  obtain ⟨main, hmain, hmem⟩ := hs.exists_main
  have hin := (hs.inBounds main hmem).1
  have hlen' := hlen _ hb'
  simp only [List.length_append] at hlen'
  have hin₁ : main.caret ≤ (b.data ++ chunk).length := by
    rw [List.length_append]
    omega
  have hlt : main.caret < 2 ^ 63 := by omega
  have hfive := hf.five
  have hnear := hf.near
  have haligned := hf.aligned
  have hcursor : v₁.ShowsCursor :=
    (showsCursor_maybeUpdateOffset_iff hb hmain hin hf.bytesPerLine hf.word hf.aligned hlt
      (by omega) (by omega) hm (ht'.symm.trans ht)).2.mpr (.inr (.inl (by omega)))
  have hf₁ := hf.toScreen.of_sameFrame hframe
  have hcursor' : v'.ShowsCursor :=
    (showsCursor_draw hb₁ hmain hin₁ hf₁.bytesPerLine hf₁.word hlt hd).mpr hcursor
  refine ⟨shown_of_showsCursor hf₁ hb₁ (hs.append chunk) ?_ hcursor,
    shown_of_showsCursor (hf₁.of_sameFrame ((SameFrame.steps fs height).draw hd)) hb'
      ((hs.append chunk).append more) ?_ hcursor'⟩
  · rw [List.length_append]
    omega
  · simp only [List.length_append]
    omega

/-- After a change of the length the offset is moved to the cursor and the view is drawn. -/
theorem shown_maybeUpdateOffsetAndDraw (h : v.maybeUpdateOffsetAndDraw fs = some v') :
    v'.Shown := by
  have hmoved : v.transitionDirtyBytes fs 0 .changeLength = some v' := h
  obtain ⟨chunk, hb'⟩ := ((Appends.steps fs 0).transitionDirtyBytes hmoved).current ht b hb
  obtain ⟨main, hmain, hmem⟩ := hs.exists_main
  have hin := (hs.inBounds main hmem).1
  have hlen' := hlen _ hb'
  rw [List.length_append] at hlen'
  have hlt : main.caret < 2 ^ 63 := by omega
  have hfive := hf.five
  obtain ⟨o, ho, hcursor⟩ := maybeUpdateOffsetAndDraw_eq hb hmain hf.bytesPerLine hf.word
    hf.aligned hlt (by omega) fs
  rw [ho] at h
  have hdraw := showsCursor_draw (v := { v with startOffset := o }) hb hmain hin hf.bytesPerLine
    hf.word hlt h
  refine shown_of_showsCursor
    (hf.toScreen.of_sameFrame ((SameFrame.steps fs 0).transitionDirtyBytes hmoved)) hb'
    (hs.append chunk) ?_ (hdraw.mpr ?_)
  · rw [List.length_append]
    omega
  · exact (showsCursor_iff (v := { v with startOffset := o }) hb hmain hin hf.bytesPerLine hf.word
      hlt).mpr hcursor

private theorem shown_transitionDirtyBytes {dirty : DirtyBytes}
    (h : v.transitionDirtyBytes fs height dirty = some v') : v'.Shown := by
  cases dirty with
  | changeInPlace intervals =>
    rw [transitionDirtyBytes_changeInPlace] at h
    obtain ⟨v₁, hm, hd⟩ := Option.bind_eq_some_iff.mp h
    exact (shown_maybeUpdateOffset hf hb hs ht hlen hm hd).2
  | changeLength => exact shown_maybeUpdateOffsetAndDraw hf hb hs ht hlen h

end Cursor

/-! ## Scrolling with the cursors -/

/-- The regions become cursors in the data. -/
theorem exists_of_moveCursors {direction : Direction} (h16 : v.bytesPerLine = 16)
    (hb : v.current = some b) (hs : b.SelectsWithin) (h : v.moveCursors direction = some v') :
    ∃ selection : Selection, v' = v.setCurrent { b with selection } ∧
      (b.data.length < 2 ^ 63 → CurrentBuffer.SelectsWithin { b with selection } ∧
        ∀ r ∈ selection.regions, r.caret = r.tail) := by
  let f : RegionMap := .move direction v.bytesPerLine b.data.length 1
  obtain ⟨b₀, hb₀, h⟩ := Option.bind_eq_some_iff.mp h
  obtain rfl : b = b₀ := Option.some.inj (hb.symm.trans hb₀)
  obtain ⟨⟨b', d⟩, hmap, h⟩ := Option.bind_eq_some_iff.mp h
  have hmap : b.mapSelections (Selection.pureClosure fun r ↦ [f.apply r]) () = some (b', d) := hmap
  have hfst := b.map_fst_mapSelections_pure fun r ↦ [f.apply r]
  rw [hmap, Option.map_some] at hfst
  obtain ⟨selection, hsel, rfl⟩ := Option.map_eq_some_iff.mp hfst.symm
  refine ⟨selection, (Option.some.inj h).symm, fun hlen ↦ ?_⟩
  have hstays : f.StaysIn b.data.length := ⟨rfl, by omega, fun _ ↦ by omega⟩
  have happly : ∀ r ∈ b.selection.regions, (f.apply r).InBounds b.data.length :=
    fun r hr ↦ RegionMap.inBounds_apply hlen hstays (hs.inBounds r hr)
  refine ⟨⟨RegionMap.valid_mapRegions (f := f) hs.valid (fun _ _ ↦ trivial) hsel, ?_⟩, ?_⟩
  · refine Selection.inBounds_mapRegions hsel fun r hr s hmem ↦ ?_
    rw [List.mem_singleton.mp hmem]
    exact happly r hr
  · refine Selection.forall_of_ofOutputs (fun a b m ha hb hm ↦ ?_) (fun _ hr ↦ hr) hsel ?_
    · have hforward := hm.strictForward_iff
      have hbackward := hm.strictBackward_iff
      unfold SelRegion.StrictForward at hforward
      unfold SelRegion.StrictBackward at hbackward
      omega
    · rw [Selection.flatten_map_singleton]
      intro r hr
      obtain ⟨r₀, hr₀, rfl⟩ := List.mem_map.mp hr
      have hin := hs.inBounds r₀ hr₀
      simp only [f, RegionMap.apply, SelRegion.simpleMove]
      split
      · next hempty =>
        rw [hempty] at hin
        exact (Nat.le_zero.mp hin.1).trans (Nat.le_zero.mp hin.2).symm
      · rfl

/-- The same in a view that more is loaded into. -/
theorem exists_cursors {direction : Direction} (hf : v.Framed) (hb : v.current = some b)
    (hs : b.SelectsWithin) (hm : v.moveCursors direction = some v₁) (ha : Appends v₁ v')
    (ht : v'.trims = v.trims) (hlen : ∀ b ∈ v'.current, b.data.length < 2 ^ 63) :
    v₁.Framed ∧ v₁.trims = v.trims ∧ ∃ b₁, v₁.current = some b₁ ∧ b₁.SelectsWithin ∧
      ∀ r ∈ b₁.selection.regions, r.caret = r.tail := by
  obtain ⟨selection, rfl, hcursors⟩ := exists_of_moveCursors hf.bytesPerLine hb hs hm
  have hb₁ := current_setCurrent hb { b with selection }
  obtain ⟨chunk, hb'⟩ := ha.current ht _ hb₁
  have hlen' := hlen _ hb'
  rw [List.length_append] at hlen'
  obtain ⟨hs₁, hp⟩ := hcursors ((Nat.le_add_right _ _).trans_lt hlen')
  exact ⟨hf.of_eq rfl rfl rfl, rfl, _, hb₁, hs₁, hp⟩

section Scroll

variable (hf : v.Framed) (hb : v.current = some b) (hs : b.SelectsWithin)
  (hp : ∀ r ∈ b.selection.regions, r.caret = r.tail) (hd : v₁.draw fs = some v')
  (hlen : ∀ b ∈ v'.current, b.data.length < 2 ^ 63)
include hf hb hs hp hd hlen

omit hf in
/-- Cursors stay cursors when more is loaded. -/
theorem shown_appends (ha : Appends v v₁) (ht : v₁.trims = v.trims) (hf₁ : v₁.Framed) :
    v₁.Shown ∧ v'.Shown := by
  have hframe := (SameFrame.steps fs 0).draw hd
  obtain ⟨chunk, hb₁⟩ := ha.current ht b hb
  obtain ⟨more, hb'⟩ := ((Appends.steps fs 0).draw hd).current (trims_draw hd) _ hb₁
  have hlen' := hlen _ hb'
  have hlen₁ : (b.data ++ chunk).length < 2 ^ 63 := by
    simp only [List.length_append] at hlen' ⊢
    omega
  exact ⟨shown_of_cursors hf₁ hb₁ (hs.append chunk) hlen₁ hp,
    shown_of_cursors (hf₁.of_eq hframe.bytesPerLine hframe.size (startOffset_draw hd)) hb'
      ((hs.append chunk).append more) hlen' hp⟩

private theorem shown_scrollUp (h : v.scrollUp fs 1 = some v₁) : v₁.Shown ∧ v'.Shown := by
  have hframe := (SameFrame.steps fs 0).scrollUp h
  have hstart := startOffset_scrollUp h
  have haligned := hf.aligned
  have hnear := hf.near
  refine shown_appends hb hs hp hd hlen ((Appends.steps fs 0).scrollUp h)
    (trims_scrollUp h) ⟨hf.toScreen.of_sameFrame hframe, ?_, ?_⟩
  · rw [hstart, show usizeMul 16 1 = 16 from rfl]
    split <;> omega
  · rw [hstart]
    split <;> omega

private theorem shown_scrollDown (h : v.scrollDown fs height 1 = some v₁)
    (ht : v'.trims = v.trims) :
    v₁.Shown ∧ v'.Shown := by
  have hframe := (SameFrame.steps fs height).scrollDown h
  have ht₁ : v₁.trims = v.trims := (trims_draw hd).symm.trans ht
  obtain ⟨b₁, chunk, hb₁, hle, -, hstart⟩ := exists_of_scrollDown hb h ht₁
  obtain ⟨more, hb'⟩ := ((Appends.steps fs height).draw hd).current (trims_draw hd) _ hb₁
  have hlen' := hlen _ hb'
  rw [List.length_append] at hlen'
  have haligned := hf.aligned
  have hnear := hf.near
  have hnext : v.nextPosition 1 = v.startOffset + 16 :=
    usizeAdd_of_lt (show v.startOffset + 16 < 2 ^ 64 by omega)
  rw [hnext] at hstart
  refine shown_appends hb hs hp hd hlen ((Appends.steps fs height).scrollDown h)
    ht₁ ⟨hf.toScreen.of_sameFrame hframe, ?_, ?_⟩
  · rw [hstart]
    split <;> omega
  · rw [hstart]
    split <;> omega

end Scroll

/-! ## What an event draws -/

/-- A resize leaves the main region off the screen, or its caret on it. -/
def ResizeKeepsMain (evt : Event) (v : HexView X) : Prop :=
  match evt with
  | .resize width height => MainShown { v with size := (width, height) }
  | _ => True

instance (v : HexView X) : DecidablePred fun evt ↦ v.ResizeKeepsMain evt
  | .resize _ _ => inferInstanceAs (Decidable (MainShown _))
  | .key _ | .mouse => inferInstanceAs (Decidable True)

section Painted

variable {paint : RowPrinter X} (hpaint : paint.Exact) (hf : v.Framed)
  (hs : ∀ b ∈ v.current, b.SelectsWithin) (ht : v'.trims = v.trims)
  (hlen : ∀ b ∈ v'.current, b.data.length < 2 ^ 63)
include hpaint hf hs ht hlen

omit hf hs ht hlen in
private theorem Shown.prints (h : v.Shown) : paint.Prints v :=
  fun rows ↦ (hpaint v h.toDrawable rows).mpr h.main

private theorem transitionDirtyBytes_of_exact {dirty : DirtyBytes}
    (h : v.transitionDirtyBytes fs height dirty = some v') :
    v'.Framed ∧ paint.painter.transitionDirtyBytes fs height v dirty = some v' := by
  obtain ⟨b, hb⟩ : ∃ b, v.current = some b := by
    cases dirty with
    | changeInPlace intervals =>
      obtain ⟨v₁, hm, -⟩ := Option.bind_eq_some_iff.mp h
      obtain ⟨b, hb, -⟩ := Option.bind_eq_some_iff.mp hm
      exact ⟨b, hb⟩
    | changeLength =>
      obtain ⟨b, hb, -⟩ := Option.bind_eq_some_iff.mp h
      exact ⟨b, hb⟩
  have hshown := shown_transitionDirtyBytes hf hb (hs b hb) ht hlen h
  refine ⟨hshown.toFramed, RowPrinter.transitionDirtyBytes_of_prints h (hshown.prints hpaint) ?_⟩
  intro v₁ hm hd
  exact (shown_maybeUpdateOffset hf hb (hs b hb) ht hlen hm hd).1.prints hpaint

/-- What a mode asks for is drawn. -/
theorem transition_of_exact {t : ModeTransition} (h : v.transition fs height t = some v') :
    v'.Framed ∧ paint.painter.transition fs height v t = some v' := by
  cases t with
  | none | newMode | modeAndInfo =>
    refine ⟨?_, h⟩
    obtain rfl := Option.some.inj h
    exact hf.of_eq rfl rfl rfl
  | dirtyBytes dirty =>
    exact transitionDirtyBytes_of_exact (v := { v with info := none }) hpaint
      (hf.of_eq rfl rfl rfl) hs ht hlen h
  | modeAndDirtyBytes mode dirty =>
    exact transitionDirtyBytes_of_exact (v := { v with info := none, mode }) hpaint
      (hf.of_eq rfl rfl rfl) hs ht hlen h

omit ht in
/-- A resize is drawn exactly when it keeps the main region. -/
theorem draw_resize_iff {width height : Nat} (hh : 5 ≤ height ∧ height < 2 ^ 16)
    (h : draw fs { v with size := (width, height) } = some v') :
    v'.Framed ∧ (paint.painter.draw fs { v with size := (width, height) } = some v' ↔
      v.ResizeKeepsMain (.resize width height)) := by
  have hf₀ : Framed { v with size := (width, height) } :=
    ⟨⟨hf.bytesPerLine, hh.1, hh.2⟩, hf.aligned, hf.near⟩
  have hframe := (SameFrame.steps fs 0).draw h
  have hf' : v'.Framed := hf₀.of_eq hframe.bytesPerLine hframe.size (startOffset_draw h)
  have hloads := h
  rw [draw_eq] at hloads
  obtain ⟨b, hb, -⟩ := Option.bind_eq_some_iff.mp hloads
  obtain ⟨chunk, hb'⟩ := ((Appends.steps fs 0).draw h).current (trims_draw h) b hb
  have hs₀ := hs b hb
  obtain ⟨main, hm, -⟩ := hs₀.exists_main
  have hpainted : paint.painter.draw fs { v with size := (width, height) } = some v' ↔
      paint none v' = some () := by
    rw [RowPrinter.draw_eq_bind, h, Option.bind_some]
    cases paint none v' <;> simp
  refine ⟨hf', ?_⟩
  rw [hpainted, hpaint v' ⟨hf', _, hb', hs₀.append chunk, hlen _ hb'⟩,
    mainShown_iff hb' hm, hframe.size, startOffset_draw h]
  exact (mainShown_iff (v := { v with size := (width, height) }) hb hm).symm

/-- What is left to the view is drawn, but for a resize that loses the main region: the keys that
scroll draw cursors. -/
theorem handleEventDefault_iff {evt : Event}
    (hevt : ∀ width height, evt = .resize width height → 5 ≤ height ∧ height < 2 ^ 16)
    (h : v.handleEventDefault fs height evt = some v') :
    v'.Framed ∧ (paint.painter.handleEventDefault fs height v evt = some v' ↔
      v.ResizeKeepsMain evt) := by
  have ha := Appends.steps (X := X) fs height
  cases handles_of_handleEventDefault fs height v h with
  | mouse => exact ⟨hf, iff_of_true rfl trivial⟩
  | resized hd => exact draw_resize_iff hpaint hf hs hlen (hevt _ _ rfl) hd
  | key hkey =>
    refine ⟨hf, iff_of_true ?_ trivial⟩
    simp only [Painter.handleEventDefault, hkey]
    rfl
  | @down key loaded v₁ v₂ v₃ _ hkey hl hm hd hdraw =>
    obtain ⟨b, hb, -⟩ := Option.bind_eq_some_iff.mp hl
    obtain ⟨chunk, hb₁, -, hstart, ht₁⟩ := exists_of_loadNextChunk hb hl
    have hframe := (SameFrame.steps fs height).load hl
    have hf₁ := hf.of_eq hframe.bytesPerLine hframe.size hstart
    obtain ⟨hf₂, ht₂, b₂, hb₂, hs₂, hp⟩ := exists_cursors hf₁ hb₁ ((hs b hb).append chunk) hm
      ((ha.scrollDown hd).trans (ha.draw hdraw)) (ht.trans ht₁.symm) hlen
    obtain ⟨hshown, hshown'⟩ := shown_scrollDown hf₂ hb₂ hs₂ hp hdraw hlen hd (by rw [ht, ht₂, ht₁])
    refine ⟨hshown'.toFramed, iff_of_true ?_ trivial⟩
    simp only [Painter.handleEventDefault, hkey]
    refine Option.bind_eq_some_iff.mpr ⟨(v₁, loaded), hl, Option.bind_eq_some_iff.mpr ⟨v₂, hm, ?_⟩⟩
    exact Option.bind_eq_some_iff.mpr
      ⟨v₃, RowPrinter.scrollDown_of_prints hd (hshown.prints hpaint),
        RowPrinter.draw_of_prints hdraw (hshown'.prints hpaint)⟩
  | @up key v₁ v₂ _ hkey hm hu hdraw =>
    obtain ⟨b, hb, -⟩ := Option.bind_eq_some_iff.mp hm
    obtain ⟨hf₁, -, b₁, hb₁, hs₁, hp⟩ := exists_cursors hf hb (hs b hb) hm
      ((ha.scrollUp hu).trans (ha.draw hdraw)) ht hlen
    obtain ⟨hshown, hshown'⟩ := shown_scrollUp hf₁ hb₁ hs₁ hp hdraw hlen hu
    refine ⟨hshown'.toFramed, iff_of_true ?_ trivial⟩
    simp only [Painter.handleEventDefault, hkey]
    exact Option.bind_eq_some_iff.mpr ⟨v₁, hm, Option.bind_eq_some_iff.mpr
      ⟨v₂, RowPrinter.scrollUp_of_prints hu (hshown.prints hpaint),
        RowPrinter.draw_of_prints hdraw (hshown'.prints hpaint)⟩⟩

end Painted

/-- A drawing loads at most sixty-four bytes. -/
theorem length_draw (hb : v.current = some b) (h : v.draw fs = some v') :
    ∀ b' ∈ v'.current, b'.data.length ≤ b.data.length + 64 := by
  intro b' hb'
  rcases draw_cases h with ⟨loaded, hl⟩ | rfl
  · rw [loadNextChunk, hb, Option.bind_eq_bind, Option.bind_some] at hl
    obtain ⟨⟨b₁, read⟩, hread, hl⟩ := Option.bind_eq_some_iff.mp hl
    obtain ⟨rfl, -⟩ := Prod.mk.inj (Option.some.inj hl)
    obtain rfl : b₁ = b' := Option.some.inj ((current_setCurrent hb _).symm.trans hb')
    exact CurrentBuffer.length_loadNextChunk hread
  · obtain rfl : b = b' := Option.some.inj (hb.symm.trans hb')
    exact Nat.le_add_right _ _

end Events

end HexView

/-! ## Runs -/

namespace Editor

variable {E : SearchEngine}

/-- The buffer that is shown after an event, before it is drawn: the mode may have edited it,
or switched to another one. -/
def handedOver (E : SearchEngine) (evt : Event) (e : Editor X) : Option (CurrentBuffer X) :=
  (e.view.mode.transition E evt { fs := e.fs, buffers := e.view.buffrCollection }
    e.view.bytesPerLine).bind fun outcome ↦ (outcome.map fun p ↦ p.2.buffers.current).getD
      e.view.current

/-- A resize leaves a screen of five rows or more. -/
def FiveRows : Event → Prop
  | .resize _ height => 5 ≤ height ∧ height < 2 ^ 16
  | _ => True

instance : DecidablePred FiveRows
  | .resize _ height => inferInstanceAs (Decidable (5 ≤ height ∧ height < 2 ^ 16))
  | .key _ | .mouse => inferInstanceAs (Decidable True)

/-- Screens have five rows or more, carets and tails are within the data, nothing is dropped,
and the data is at most half of the address space. -/
structure InDomain (E : SearchEngine) (input : Nat × Event) (e : Editor X) : Prop where
  height : FiveRows input.2
  inBounds : ∀ b ∈ e.handedOver E input.2, ∀ r ∈ b.selection.regions, r.InBounds b.data.length
  trims : ∀ e' ∈ e.stepAt E input, e'.view.trims = e.view.trims
  length : ∀ e' ∈ e.stepAt E input, ∀ b ∈ e'.view.current, b.data.length < 2 ^ 63

instance (input : Nat × Event) (e : Editor X) : Decidable (e.InDomain E input) :=
  decidable_of_iff
    (FiveRows input.2 ∧
      (∀ b ∈ e.handedOver E input.2, ∀ r ∈ b.selection.regions, r.InBounds b.data.length) ∧
      (∀ e' ∈ e.stepAt E input, e'.view.trims = e.view.trims) ∧
      ∀ e' ∈ e.stepAt E input, ∀ b ∈ e'.view.current, b.data.length < 2 ^ 63)
    ⟨fun h ↦ ⟨h.1, h.2.1, h.2.2.1, h.2.2.2⟩, fun h ↦ ⟨h.height, h.inBounds, h.trims, h.length⟩⟩

/-- The selection that is drawn is sorted and disjoint and has one main region. -/
def HandsOverValid (E : SearchEngine) (input : Nat × Event) (e : Editor X) : Prop :=
  ∀ b ∈ e.handedOver E input.2, b.selection.Valid

instance (input : Nat × Event) (e : Editor X) : Decidable (e.HandsOverValid E input) :=
  inferInstanceAs (Decidable (∀ b ∈ e.handedOver E input.2, b.selection.Valid))

/-- A resize that is handled leaves the main region off the screen, or its caret on it. -/
def KeepsMain (E : SearchEngine) (input : Nat × Event) (e : Editor X) : Prop :=
  (e.stepAt E input).isSome → e.view.ResizeKeepsMain input.2

instance (input : Nat × Event) (e : Editor X) : Decidable (e.KeepsMain E input) :=
  inferInstanceAs (Decidable (_ → e.view.ResizeKeepsMain input.2))

/-- An event that is handled is drawn, without a panic and with the bounds of the inspected
bytes. -/
def DrawsSafely (E : SearchEngine) (input : Nat × Event) (e : Editor X) : Prop :=
  ∀ e' ∈ e.stepAt E input,
    e.stepWith HexView.checkBounds E input.1 input.2 = some e' ∧
      ∀ G, e.stepWith (HexView.print G) E input.1 input.2 = some e'

variable {paint : RowPrinter X} {e e' : Editor X} {input : Nat × Event}

/-- A single cursor at the start of at most a screen of bytes. -/
theorem exists_of_initialBuffers {fs : FileSystem} {filename : Option Path} {height : Nat}
    {buffers : BuffrCollection X} (h : initialBuffers fs filename height = some buffers) :
    ∃ b, buffers = .withCurrentBuffer b ∧ b.selection = Selection.new ∧
      b.data.length ≤ chunkSize height := by
  cases filename with
  | none => exact ⟨_, (Option.some.inj h).symm, rfl, Nat.zero_le _⟩
  | some path =>
    obtain ⟨data, hdata, rfl⟩ := Option.map_eq_some_iff.mp h
    obtain ⟨content, -, rfl⟩ := Option.map_eq_some_iff.mp hdata
    exact ⟨_, rfl, rfl, List.length_take_le _ _⟩

/-- The first drawing shows the start of the data, with the cursor on it. -/
theorem startedWith_of_exact {fs : FileSystem} {filename : Option Path} {size : Nat × Nat}
    (hpaint : paint.Exact) (hfive : 5 ≤ size.2) (hword : size.2 < 2 ^ 16)
    (h : started fs filename size = some e) :
    e.view.Framed ∧ startedWith paint fs filename size = some e := by
  obtain ⟨buffers, hbuffers, h⟩ := Option.bind_eq_some_iff.mp h
  obtain ⟨view, hview, h⟩ := Option.bind_eq_some_iff.mp h
  obtain rfl := Option.some.inj h
  obtain ⟨b, rfl, hsel, hle⟩ := exists_of_initialBuffers hbuffers
  have hzero : ∀ r ∈ b.selection.regions, r.caret = 0 ∧ r.tail = 0 := by
    rw [hsel]
    decide
  have hshown : view.Shown := by
    refine (HexView.shown_scrollUp (v := HexView.withBuffrCollection (.withCurrentBuffer b) size)
      ⟨⟨rfl, hfive, hword⟩, ⟨0, rfl⟩, Nat.two_pow_pos 63⟩ rfl
      ⟨hsel ▸ Selection.valid_new, ?_⟩ ?_ hview ?_ rfl).2
    · intro r hr
      obtain ⟨hcaret, htail⟩ := hzero r hr
      exact ⟨hcaret ▸ Nat.zero_le _, htail ▸ Nat.zero_le _⟩
    · intro r hr
      obtain ⟨hcaret, htail⟩ := hzero r hr
      rw [hcaret, htail]
    · intro b' hb'
      have hloaded := HexView.length_draw rfl hview b' hb'
      unfold chunkSize at hle
      omega
  refine ⟨hshown.toFramed, ?_⟩
  exact Option.bind_eq_some_iff.mpr ⟨_, hbuffers, Option.bind_eq_some_iff.mpr
    ⟨view, RowPrinter.draw_of_prints hview (hshown.prints hpaint), rfl⟩⟩

/-- The view that an event of the mode hands over to be drawn. -/
theorem handedOver_of_some {evt : Event} {t : ModeTransition} {ws : Workspace X}
    (h : e.view.mode.transition E evt { fs := e.fs, buffers := e.view.buffrCollection }
      e.view.bytesPerLine = some (some (t, ws))) : e.handedOver E evt = ws.buffers.current := by
  rw [handedOver, h]
  rfl

private theorem handedOver_of_none {evt : Event}
    (h : e.view.mode.transition E evt { fs := e.fs, buffers := e.view.buffrCollection }
      e.view.bytesPerLine = some none) : e.handedOver E evt = e.view.current := by
  rw [handedOver, h]
  rfl

end Editor

/-- No mode handles a resize. -/
theorem Mode.transition_resize {E : SearchEngine} {mode : Mode} {width height bytesPerLine : Nat}
    {ws : Workspace X} {o : Option (ModeTransition × Workspace X)}
    (h : mode.transition E (.resize width height) ws bytesPerLine = some o) : o = none := by
  cases mode with
  | command m => exact (Option.some.inj h).symm
  | quitting =>
    obtain ⟨b, -, h⟩ := Option.bind_eq_some_iff.mp h
    cases h
  | normal | jumpTo | split | search | insert | replace =>
    obtain ⟨b, -, h⟩ := Option.bind_eq_some_iff.mp h
    exact (Option.some.inj h).symm

namespace Editor

variable {E : SearchEngine} {paint : RowPrinter X} {e e' : Editor X} {input : Nat × Event}

/-- An event is drawn but for a resize that loses the main region. -/
theorem stepWith_iff (hpaint : paint.Exact) (hf : e.view.Framed) (hd : e.InDomain E input)
    (hv : e.HandsOverValid E input) (h : e.stepAt E input = some e') :
    e'.view.Framed ∧ (e.stepWith paint E input.1 input.2 = some e' ↔
      e.view.ResizeKeepsMain input.2) := by
  have ht := hd.trims e' h
  have hlen := hd.length e' h
  have hs : ∀ b ∈ e.handedOver E input.2, b.SelectsWithin :=
    fun b hb ↦ ⟨hv b hb, hd.inBounds b hb⟩
  rw [stepWith, paint.painter.step_of_statusline (fun _ ↦ rfl) (mode_ne_quitting_of_step h)]
  rcases round_cases h with ⟨t, ws, ho, hfs, hview⟩ | ⟨ho, hfs, hview⟩
  · rw [handedOver_of_some ho] at hs
    obtain ⟨hf', hdraw⟩ := HexView.transition_of_exact hpaint
      (v := { e.view with buffrCollection := ws.buffers }) (hf.of_eq rfl rfl rfl) hs ht hlen hview
    refine ⟨hf', iff_of_true ?_ ?_⟩
    · rw [ho, Option.bind_some]
      exact Option.map_eq_some_iff.mpr ⟨_, hdraw, by rw [← hfs]⟩
    · obtain ⟨height, evt⟩ := input
      cases evt with
      | resize width height => cases Mode.transition_resize ho
      | key | mouse => trivial
  · rw [handedOver_of_none ho] at hs
    obtain ⟨hf', hiff⟩ :=
      HexView.handleEventDefault_iff hpaint hf hs ht hlen
        (fun width height hevt ↦ by simpa [hevt, FiveRows] using hd.height) hview
    refine ⟨hf', Iff.trans ?_ hiff⟩
    have he' : e' = { e with view := e'.view } := by rw [← hfs]
    rw [ho, Option.bind_some, Option.map_eq_some_iff]
    refine ⟨?_, fun hdraw ↦ ⟨_, hdraw, he'.symm⟩⟩
    rintro ⟨view, hdraw, rfl⟩
    exact hdraw

private theorem keepsMain_iff (hf : e.view.Framed) (hd : e.InDomain E input)
    (hv : e.HandsOverValid E input) : e.KeepsMain E input ↔ e.DrawsSafely E input := by
  unfold KeepsMain DrawsSafely
  cases hs : e.stepAt E input with
  | none => simp
  | some e' =>
    have hchecked := (stepWith_iff HexView.exact_checkBounds hf hd hv hs).2
    have hprinted := fun G ↦ (stepWith_iff (HexView.exact_print G) hf hd hv hs).2
    simp only [Option.isSome_some, forall_const, Option.mem_def, Option.some.injEq, forall_eq',
      hchecked, hprinted, and_self]

/-- On a screen of five rows or more, with the selection valid and within the data and nothing
dropped, a run draws every event with the bounds of the inspected bytes and without a panic
exactly when no resize leaves a part of the main region on the screen and its caret off it. -/
theorem inspected_bytes_iff {fs : FileSystem} {filename : Option Path} {size : Nat × Nat}
    {e₀ : Editor X} (E : SearchEngine) (inputs : List (Nat × Event)) (hfive : 5 ≤ size.2)
    (hword : size.2 < 2 ^ 16) (ho : started fs filename size = some e₀)
    (hd : Along (stepAt E) (InDomain E) inputs e₀)
    (hv : Along (stepAt E) (HandsOverValid E) inputs e₀) :
    (startedWith HexView.checkBounds fs filename size = some e₀ ∧
      ∀ G, startedWith (HexView.print G) fs filename size = some e₀) ∧
    (Along (stepAt E) (KeepsMain E) inputs e₀ ↔
      Along (stepAt E) (DrawsSafely E) inputs e₀) := by
  obtain ⟨hf, hchecked⟩ := startedWith_of_exact HexView.exact_checkBounds hfive hword ho
  refine ⟨⟨hchecked, fun G ↦
    (startedWith_of_exact (HexView.exact_print G) hfive hword ho).2⟩, ?_⟩
  refine along_congr (I := fun e ↦ e.view.Framed) hf (hd.and hv) ?_ ?_
  · rintro input e e' hf ⟨hd, hv⟩ hs
    exact (stepWith_iff HexView.exact_checkBounds hf hd hv hs).1
  · rintro input e hf ⟨hd, hv⟩
    exact keepsMain_iff hf hd hv

-- A file of two hundred bytes.
private def twoHundred : FileSystem := .single ['f'] ((List.range 200).map Nat.toUInt8)

-- The keys that extend the cursor down by eight lines, on a screen of twenty rows.
private def eightDown : List (Nat × Event) :=
  [(20, .key (.plain (.char '8'))), (20, .key (.plain (.char 'J')))]

/-- On ten rows the caret is still on the screen after the resize. -/
theorem inspected_bytes_ten_rows :
    ∃ e₀ : Editor (XiRope.reference UInt8), started twoHundred (some ['f']) (80, 20) = some e₀ ∧
      Along (stepAt .reference) (DrawsSafely .reference)
        (eightDown ++ [(10, .resize 80 10)]) e₀ := by
  obtain ⟨e₀, ho, hd, hv, hkeeps⟩ :
      ∃ e₀ ∈ started (X := XiRope.reference UInt8) twoHundred (some ['f']) (80, 20),
        Along (stepAt .reference) (InDomain .reference) (eightDown ++ [(10, .resize 80 10)]) e₀ ∧
        Along (stepAt .reference) (HandsOverValid .reference)
          (eightDown ++ [(10, .resize 80 10)]) e₀ ∧
        Along (stepAt .reference) (KeepsMain .reference)
          (eightDown ++ [(10, .resize 80 10)]) e₀ := by decide +kernel
  exact ⟨e₀, ho, (inspected_bytes_iff .reference _ (by decide) (by decide) ho hd hv).2.mp hkeeps⟩

/-- On five rows the main region starts on the screen, and its caret is on the ninth line. -/
theorem inspected_bytes_five_rows :
    ∃ e₀ ∈ started (X := XiRope.reference UInt8) twoHundred (some ['f']) (80, 20),
      Along (stepAt .reference) (InDomain .reference) (eightDown ++ [(5, .resize 80 5)]) e₀ ∧
      Along (stepAt .reference) (HandsOverValid .reference)
        (eightDown ++ [(5, .resize 80 5)]) e₀ ∧
      ∃ e ∈ runSteps (stepAt .reference) eightDown e₀,
        ∃ e' ∈ e.stepAt .reference (5, .resize 80 5), ¬ e'.view.InspectsInRange ∧
          e.stepWith (HexView.print .reference) .reference 5 (.resize 80 5) = none := by
  decide +kernel

end Editor

end Tofu
