import Tofu.View.Row

/-!
# Pictures

What `draw` and `draw_rows` (`src/src/hex_view/view.rs:1244–1398`) leave on a display. A
picture is what drawing all of a view leaves on the rows above the status line; drawing some
rows leaves it when the others show it already.
-/

namespace Tofu

open Rope

/-! ## Rows of the view -/

section Row

variable {X : XiRope UInt8} {v : HexView X} {b : CurrentBuffer X} {G : DrawEnv}

/-- Only the last region gets behind the data. -/
theorem regionAt_length (hs : b.SelectsWithin) {last : SelRegion}
    (hlast : b.selection.regions.getLast? = some last) :
    regionAt b.selection.regions b.data.length =
      if last.max = b.data.length then some last else none := by
  obtain ⟨init, hinit⟩ := List.getLast?_eq_some_iff.mp hlast
  have hsorted := hs.valid.sorted
  have hin := hs.inBounds
  rw [hinit] at hsorted hin ⊢
  have hmax := (SelRegion.inBounds_iff_max_le _ last).mp (hin last (by simp))
  have hbefore : ∀ r ∈ init, r.max < last.min := fun r hr ↦
    (List.pairwise_append.mp hsorted).2.2 r hr last (List.mem_singleton_self last)
  have hnone : init.find? (fun r ↦ decide (r.min ≤ b.data.length ∧ b.data.length ≤ r.max)) =
      none := by
    refine List.find?_eq_none.mpr fun r hr ↦ ?_
    have hlt := hbefore r hr
    have hle := last.min_le_max
    simp only [decide_eq_true_eq]
    omega
  have hle := last.min_le_max
  rw [regionAt, List.find?_append, hnone, Option.none_or, List.find?_singleton]
  simp only [decide_eq_true_eq]
  split <;> split <;> first | rfl | omega

private theorem HexView.overflowCursorStyle_eq (hs : b.SelectsWithin) :
    v.overflowCursorStyle b = some (endStyleAt v.mode.hasHalfCursor b.data.length
      (regionAt b.selection.regions b.data.length)) := by
  have hlast := List.getLast?_eq_some_getLast hs.valid.nonempty
  set last := b.selection.regions.getLast hs.valid.nonempty
  have hin := (SelRegion.inBounds_iff_max_le _ last).mp
    (hs.inBounds last (List.getLast_mem _))
  have hmax : last.max = b.data.length ↔
      last.caret = b.data.length ∨ last.tail = b.data.length := by
    unfold SelRegion.max at hin ⊢
    omega
  rw [regionAt_length hs hlast, HexView.overflowCursorStyle, CurrentBuffer.overflowSelStyle, hlast]
  simp only [Option.bind_eq_bind, Option.bind_some, hmax, endStyleAt, Option.some.injEq]
  by_cases hcaret : last.caret = b.data.length
  · by_cases htail : last.tail = b.data.length <;>
      simp only [hcaret, htail, and_self, and_false, true_or, if_true, if_false, Option.map_some]
  · by_cases htail : last.tail = b.data.length <;>
      simp [hcaret, htail]

private theorem HexView.rowEndStyle_eq (h16 : v.bytesPerLine = 16) (hs : b.SelectsWithin) {i : Nat}
    (hi : i + 16 < 2 ^ 64) : v.rowEndStyle b i = some (b.rowEnd v.mode.hasHalfCursor i) := by
  rw [HexView.rowEndStyle, h16, usizeAdd_of_lt hi, CurrentBuffer.rowEnd,
    HexView.overflowCursorStyle_eq hs]
  split <;> rfl

/-- A row that is on the screen is printed with its columns as wide as on a full row. -/
theorem HexView.drawRow_eq (h16 : v.bytesPerLine = 16) {bytes : List UInt8} {offset row : Nat}
    {marks : List StylingCommand} {endStyle : Option StylingCommand} {p : Printing}
    {line : List TermOp} (hrow : v.offsetToRow offset = some row)
    (hlen : bytes.length ≤ 16) (hend : endStyle.isSome → bytes.length < 16)
    (hline : p.byteProperties.lineOps G.reader G.printable = some line) :
    v.drawRow G bytes offset marks endStyle p = some
      { ops := p.ops ++ drawnRow row (paddedRow bytes marks endStyle) line
        byteProperties := p.byteProperties.drawLine } := by
  have hblank : (if bytes = [] then 16 else (16 - bytes.length) % 16) = 16 - bytes.length := by
    split
    · next hnil => rw [hnil, List.length_nil]
    · next hne =>
      have := List.length_pos_iff.mpr hne
      omega
  have hhex : v.hexPadding bytes endStyle =
      3 * (16 - bytes.length) - if endStyle.isSome then 2 else 0 := by
    have hmul : (if bytes = [] then usizeMul 16 3 else usizeMul ((16 - bytes.length) % 16) 3) =
        3 * (16 - bytes.length) := by
      rw [← apply_ite (usizeMul · 3), hblank, usizeMul_of_lt (by omega), Nat.mul_comm]
    simp only [HexView.hexPadding, h16, hmul]
    unfold usizeSub
    split
    · next hsome =>
      have := hend hsome
      omega
    · rfl
  have hascii : v.asciiPadding bytes endStyle =
      17 - bytes.length - if endStyle.isSome then 1 else 0 := by
    simp only [HexView.asciiPadding, h16, hblank]
    rw [usizeAdd_of_lt (by omega)]
    unfold usizeSub
    split
    · next hsome =>
      have := hend hsome
      omega
    · omega
  simp only [HexView.drawRow, hrow, hline, hhex, hascii, Option.bind_eq_bind]
  rw [ByteProperties.makePadding_of_le (by omega), ByteProperties.makePadding_of_le (by omega)]
  rfl

end Row

/-! ## Frames -/

namespace HexView

variable {X : XiRope UInt8}

/-- The view of a buffer that has a byte, or the end of the data, on its first row. -/
structure Views (v : HexView X) (b : CurrentBuffer X) : Prop extends v.Framed where
  current : v.current = some b
  within : b.SelectsWithin
  length : b.data.length < 2 ^ 63
  start : v.startOffset ≤ b.data.length

/-- The rows with data on the screen. -/
def dataRows (v : HexView X) (b : CurrentBuffer X) : Nat :=
  v.rowCount (v.visibleBytes b.data.length)

/-- What row `k` shows of the data, as far as that is visible. -/
def rowOps (v : HexView X) (b : CurrentBuffer X) (k : Nat) : List TermOp :=
  if k < v.dataRows b then
    b.row v.mode.hasHalfCursor (v.startOffset + k * 16)
  else paddedRow [] [] none

/-- The line about the current bytes on row `k`; there is none from the sixth row on. -/
def lineAt (G : DrawEnv) (currentBytes : List UInt8) (k : Nat) : List TermOp :=
  (BytePropertiesFormatter.lineOps G.reader G.printable { data := currentBytes, line := k }).getD []

/-- What is queued for row `k`. -/
def frameRow (G : DrawEnv) (v : HexView X) (b : CurrentBuffer X) (currentBytes : List UInt8)
    (k : Nat) : List TermOp :=
  drawnRow k (v.rowOps b k) (lineAt G currentBytes k)

section Frame

variable {G : DrawEnv} {v : HexView X} {b : CurrentBuffer X} {currentBytes : List UInt8}
  {invalidatedRows : Option (List Nat)}

private theorem lineOps_eq (hfour : currentBytes.length ≤ 4) {line k : Nat}
    (hline : line = k ∨ 5 ≤ line ∧ 5 ≤ k) :
    BytePropertiesFormatter.lineOps G.reader G.printable { data := currentBytes, line } =
      some (lineAt G currentBytes k) := by
  rcases hline with rfl | ⟨hline, hk⟩
  · obtain ⟨ops, hops⟩ := BytePropertiesFormatter.exists_lineOps G.reader G.printable
      (f := { data := currentBytes, line }) hfour
    rw [lineAt, hops, Option.getD_some]
  · obtain ⟨line, rfl⟩ := Nat.exists_eq_add_of_le' hline
    obtain ⟨k, rfl⟩ := Nat.exists_eq_add_of_le' hk
    rfl

/-- The visible range ends with the screen or behind the data. -/
theorem Views.stop_eq (h : v.Views b) : (v.visibleBytes b.data.length).stop =
    min (b.data.length + 1) (v.startOffset + (v.size.2 - 1) * 16) := by
  have hword := h.word
  have hnear := h.near
  exact stop_visibleBytes h.bytesPerLine (by omega) _

private theorem Views.dataRows_eq (h : v.Views b) : v.dataRows b =
    min (v.size.2 - 1) ((b.data.length - v.startOffset) / 16 + 1) := by
  have hstart := h.start
  have hfive := h.five
  rw [dataRows, rowCount, h.stop_eq, h.bytesPerLine,
    show (v.visibleBytes b.data.length).start = v.startOffset from rfl]
  omega

/-- A row has data when it is above the status line and starts in the data or at its end. -/
theorem Views.lt_dataRows_iff (h : v.Views b) {k : Nat} :
    k < v.dataRows b ↔ k < v.size.2 - 1 ∧ v.startOffset + k * 16 ≤ b.data.length := by
  have hstart := h.start
  rw [h.dataRows_eq]
  omega

private theorem Views.offsetToRow_eq (h : v.Views b) {k : Nat} (hk : k < v.size.2) :
    v.offsetToRow (v.startOffset + k * 16) = some k := by
  have h16 := h.bytesPerLine
  have hrow := offsetToRow_add (v := v) (by omega) hk
  rwa [h16] at hrow

private theorem slice_map_range' {α : Type} (f : Nat → α) (start n first last : Nat)
    (hlast : last ≤ n) :
    (((List.range' start n).map f).take last).drop first =
      (List.range' (start + first) (last - first)).map f := by
  have hsplit : List.range' start last =
      List.range' start (min first last) ++ List.range' (start + first) (last - first) := by
    rcases Nat.le_total first last with hle | hle
    · rw [Nat.min_eq_left hle, List.range'_append_1, Nat.add_sub_cancel' hle]
    · rw [Nat.min_eq_right hle, Nat.sub_eq_zero_of_le hle, List.range'_zero, List.append_nil]
  rw [← List.map_take, ← List.map_drop, List.take_range'_of_length_ge hlast]
  rcases Nat.le_total first last with hle | hle
  · rw [hsplit, Nat.min_eq_left hle, List.drop_left' List.length_range']
  · rw [List.drop_eq_nil_of_le (by rw [List.length_range']; exact hle), Nat.sub_eq_zero_of_le hle,
      List.range'_zero]

private theorem slice_rowBytes {start len first : Nat}
    (hlen : min (b.data.length - start) (first + 16) ≤ len) :
    let cow := (b.data.drop start).take len
    (cow.take (min cow.length (first + 16))).drop first = b.rowBytes (start + first) := by
  intro cow
  have hcow : cow.length = min len (b.data.length - start) := by
    rw [List.length_take, List.length_drop]
  rw [CurrentBuffer.rowBytes, List.take_take, List.drop_take, List.drop_drop]
  apply List.ext_getElem?
  intro j
  simp only [List.getElem?_take, List.getElem?_drop, hcow]
  split <;> split <;> first | rfl | skip
  · omega
  · rw [List.getElem?_eq_none (by omega)]

variable (G invalidatedRows) in
private theorem dataRow_eq (h : v.Views b) (hfour : currentBytes.length ≤ 4) {k : Nat}
    (hk : k < v.dataRows b) {p : Printing} {line : Nat}
    (hp : p.byteProperties = { data := currentBytes, line }) (hline : line = k ∨ 5 ≤ line ∧ 5 ≤ k) :
    let visible := v.visibleBytes b.data.length
    v.dataRow G b invalidatedRows
        ((b.data.drop v.startOffset).take (visible.stop - v.startOffset))
        ((List.range' v.startOffset (visible.stop - v.startOffset)).map fun i ↦
          markAt 16 v.mode.hasHalfCursor i (regionAt b.selection.regions i))
        p (v.startOffset + k * 16) =
      some (if Drawn invalidatedRows k then
        { ops := p.ops ++ frameRow G v b currentBytes k
          byteProperties := { data := currentBytes, line := line + 1 } }
      else p) := by
  intro visible
  have h16 := h.bytesPerLine
  have hlen := h.length
  obtain ⟨hrow, hvisible⟩ := h.lt_dataRows_iff.mp hk
  have hstop : visible.stop = min (b.data.length + 1) (v.startOffset + (v.size.2 - 1) * 16) :=
    h.stop_eq
  have hdraws := drawsRow_add (v := v) (k := k) (by omega) (by omega) invalidatedRows
  rw [h16] at hdraws
  rw [dataRow, hdraws, Option.bind_eq_bind, Option.bind_some]
  split
  · set cow := (b.data.drop v.startOffset).take (visible.stop - v.startOffset) with hcow
    have hcowlen :
        cow.length = min (visible.stop - v.startOffset) (b.data.length - v.startOffset) := by
      rw [hcow, List.length_take, List.length_drop]
    have hend : usizeAdd (k * 16) v.bytesPerLine = k * 16 + 16 := by
      rw [h16, usizeAdd_of_lt (by omega)]
    have hbytes : (cow.take (min cow.length (k * 16 + 16))).drop (k * 16) =
        b.rowBytes (v.startOffset + k * 16) := slice_rowBytes (by omega)
    have hcount : (b.rowBytes (v.startOffset + k * 16)).length =
        min cow.length (k * 16 + 16) - k * 16 := by
      rw [← hbytes, List.length_drop, List.length_take]
      omega
    have hmarks := slice_map_range'
      (fun i ↦ markAt 16 v.mode.hasHalfCursor i (regionAt b.selection.regions i)) v.startOffset
      (visible.stop - v.startOffset) (k * 16) (min cow.length (k * 16 + 16)) (by omega)
    rw [← hcount] at hmarks
    simp only [Nat.add_sub_cancel_left, hend, checkedSlice, Option.bind_eq_bind, List.length_map,
      List.length_range']
    rw [if_pos ⟨by omega, by omega⟩, Option.bind_some, if_pos ⟨by omega, by omega⟩,
      Option.bind_some, rowEndStyle_eq h16 h.within (by omega), Option.bind_some, hbytes, hmarks,
      drawRow_eq h16 (h.offsetToRow_eq (by omega)) _ _ (by rw [hp]; exact lineOps_eq hfour hline)]
    · rw [hp, frameRow, rowOps, if_pos hk]
      rfl
    · rw [hcount]
      omega
    · intro hsome
      have hbehind : b.data.length < v.startOffset + k * 16 + 16 := by
        unfold CurrentBuffer.rowEnd at hsome
        split at hsome
        · assumption
        · cases hsome
      rw [hcount]
      omega
  · rfl

/-- The rows of data that are to be drawn, one after the other. When the first five are among
them, each has the line of its number. -/
theorem foldlM_dataRow (h : v.Views b) (hfour : currentBytes.length ≤ 4)
    (hrows : ∀ k < 5, Drawn invalidatedRows k) (ops : List TermOp) {n : Nat}
    (hn : n ≤ v.dataRows b) :
    let visible := v.visibleBytes b.data.length
    ∃ line, (line = n ∨ 5 ≤ line ∧ 5 ≤ n) ∧
      ((List.range n).map fun k ↦ v.startOffset + k * 16).foldlM
        (v.dataRow G b invalidatedRows
          ((b.data.drop v.startOffset).take (visible.stop - v.startOffset))
          ((List.range' v.startOffset (visible.stop - v.startOffset)).map fun i ↦
            markAt 16 v.mode.hasHalfCursor i (regionAt b.selection.regions i)))
        { ops, byteProperties := { data := currentBytes, line := 0 } } = some
        { ops := ops ++
            ((List.range n).filter (Drawn invalidatedRows)).flatMap (frameRow G v b currentBytes)
          byteProperties := { data := currentBytes, line } } := by
  intro visible
  induction n with
  | zero => exact ⟨0, .inl rfl, by simp⟩
  | succ n ih =>
    obtain ⟨line, hline, hrun⟩ := ih (by omega)
    have hrow := dataRow_eq G invalidatedRows h hfour
      (show n < v.dataRows b by omega)
      (p := ⟨ops ++ ((List.range n).filter (Drawn invalidatedRows)).flatMap
        (frameRow G v b currentBytes), ⟨currentBytes, line⟩⟩) rfl hline
    rw [List.range_succ, List.map_append, List.foldlM_append, hrun, List.map_singleton,
      Option.bind_eq_bind, Option.bind_some, List.foldlM_cons]
    refine ⟨if Drawn invalidatedRows n then line + 1 else line, ?_,
      (congrArg (Option.bind · _) hrow).trans ?_⟩
    · split
      · omega
      · next hnot =>
        have hfive : 5 ≤ n := by
          by_contra hlt
          exact hnot (hrows n (by omega))
        omega
    · rw [Option.bind_some, List.foldlM_nil, List.filter_append, List.flatMap_append]
      split
      · next hdrawn => simp [hdrawn, List.append_assoc]
      · next hnot => simp [hnot]

private theorem drawData_eq (h : v.Views b) (hfour : currentBytes.length ≤ 4)
    (hrows : ∀ k < 5, Drawn invalidatedRows k) :
    ∃ line, (line = v.dataRows b ∨ 5 ≤ line ∧ 5 ≤ v.dataRows b) ∧
      v.drawData G invalidatedRows currentBytes = some
        { ops := (if invalidatedRows.isNone then [.moveTo 0 0, .clearAll] else []) ++
            ((List.range (v.dataRows b)).filter (Drawn invalidatedRows)).flatMap
              (frameRow G v b currentBytes)
          byteProperties := { data := currentBytes, line } } := by
  have h16 := h.bytesPerLine
  have hstart := h.start
  have hstop := h.stop_eq
  set visible := v.visibleBytes b.data.length with hvis
  have hcow : sliceToCow b.data visible = some
      ((b.data.drop v.startOffset).take (visible.stop - v.startOffset)) := by
    rw [sliceToCow, if_neg (by change ¬ (v.startOffset < _ ∧ _ < v.startOffset); omega)]
    rfl
  have hrange : ¬ ∃ r ∈ b.selection.regions, visible.stop < r.min ∧ r.max < visible.start := by
    rintro ⟨r, hr, hmin, hmax⟩
    have hle := r.min_le_max
    change r.max < v.startOffset at hmax
    have hfive := h.five
    omega
  have hmarks := markCommands_eq visible h.current h.within.valid (by omega) hrange
  rw [h16, show visible.start = v.startOffset from rfl] at hmarks
  obtain ⟨line, hline, hrun⟩ := foldlM_dataRow (G := G) h hfour hrows
    (if invalidatedRows.isNone then [.moveTo 0 0, .clearAll] else []) (Nat.le_refl (v.dataRows b))
  refine ⟨line, hline, ?_⟩
  rw [drawData, h.current, Option.bind_eq_bind, Option.bind_some]
  simp only [← hvis, hcow, hmarks, Option.bind_eq_bind, Option.bind_some,
    BytePropertiesFormatter.new, if_pos hfour, h16, if_neg (show 16 ≠ 0 by decide)]
  exact hrun

private theorem drawRemaining_eq (h : v.Views b) (hfour : currentBytes.length ≤ 4) {n k : Nat}
    (hn : k + n = 5) {p : Printing} (hp : p.byteProperties = { data := currentBytes, line := k })
    {rounds : Nat} (hrounds : n ≤ rounds) :
    v.drawRemaining G rounds p (v.startOffset + k * 16) = some
      { ops := p.ops ++ (List.range' k n).flatMap fun k ↦
          drawnRow k (paddedRow [] [] none) (lineAt G currentBytes k)
        byteProperties := { data := currentBytes, line := 5 } } := by
  have h16 := h.bytesPerLine
  have hfive := h.five
  have hnear := h.near
  induction n generalizing k p rounds with
  | zero =>
    obtain rfl : k = 5 := by omega
    have hall : p.byteProperties.areAllPrinted := (areAllPrinted_iff _).mpr (by rw [hp])
    have hdone : v.drawRemaining G rounds p (v.startOffset + 5 * 16) = some p := by
      cases rounds with
      | zero => rfl
      | succ rounds => rw [drawRemaining, if_pos hall]
    rw [hdone, List.range'_zero, List.flatMap_nil, List.append_nil, ← hp]
  | succ n ih =>
    obtain ⟨rounds, rfl⟩ := Nat.exists_eq_add_of_le' (show 1 ≤ rounds by omega)
    have hgo : ¬ p.byteProperties.areAllPrinted := by
      rw [areAllPrinted_iff, hp]
      simp only
      omega
    have hnext : usizeAdd (v.startOffset + k * 16) v.bytesPerLine =
        v.startOffset + (k + 1) * 16 := by
      rw [h16, usizeAdd_of_lt (by omega)]
      omega
    rw [drawRemaining, if_neg hgo, hnext, drawRow_eq h16 (h.offsetToRow_eq (by omega)) (by simp)
      (by simp) (by rw [hp]; exact lineOps_eq hfour (.inl rfl)), Option.bind_eq_bind,
      Option.bind_some, ih (by omega) (by rw [hp]; rfl) (by omega), List.range'_succ,
      List.flatMap_cons, List.append_assoc]

private theorem Views.length_currentBytes (h : v.Views b)
    (hbytes : v.currentBytes = some currentBytes) :
    currentBytes.length ≤ 4 := by
  rcases currentBytes_cases h.toFramed h.current h.within h.length with
    ⟨-, bytes, hsome, hfour⟩ | ⟨-, hnone⟩
  · rwa [← Option.some.inj (hsome.symm.trans hbytes)]
  · cases hnone.symm.trans hbytes

/-- A frame draws the rows asked for that have data, and the others of the first five. -/
theorem printFrame_eq (h : v.Views b) (hbytes : v.currentBytes = some currentBytes)
    (hrounds : 5 ≤ G.rounds) (hrows : ∀ k < 5, Drawn invalidatedRows k) :
    v.printFrame G invalidatedRows = some
      ((if invalidatedRows.isNone then [.moveTo 0 0, .clearAll] else []) ++
        ((List.range (v.dataRows b)).filter (Drawn invalidatedRows) ++
          List.range' (v.dataRows b) (5 - v.dataRows b)).flatMap
            (frameRow G v b currentBytes)) := by
  have hstart := h.start
  have hfour := h.length_currentBytes hbytes
  obtain ⟨line, hline, hdata⟩ := drawData_eq (G := G) h hfour hrows
  have hfirst :
      v.firstEmptyRow (v.visibleBytes b.data.length) = v.startOffset + v.dataRows b * 16 := by
    have haligned := h.aligned
    have hlen := h.length
    have hfive := h.five
    rw [firstEmptyRow, h.bytesPerLine, h.stop_eq, h.dataRows_eq,
      usizeMul_of_lt (by split <;> omega)]
    split <;> omega
  have hremaining (ops : List TermOp) :
      v.drawRemaining G G.rounds ⟨ops, ⟨currentBytes, line⟩⟩ (v.startOffset + v.dataRows b * 16) =
        some ⟨ops ++ (List.range' (v.dataRows b) (5 - v.dataRows b)).flatMap
          (frameRow G v b currentBytes), ⟨currentBytes, max line 5⟩⟩ := by
    rcases Nat.lt_or_ge (v.dataRows b) 5 with hfew | hmany
    · obtain rfl : line = v.dataRows b := by omega
      rw [drawRemaining_eq h hfour (show v.dataRows b + (5 - v.dataRows b) = 5 by omega) rfl
        (by omega), Nat.max_eq_right (by omega)]
      congr 3
      refine List.flatMap_congr fun k hk ↦ ?_
      have hk := List.mem_range'_1.mp hk
      rw [frameRow, rowOps, if_neg (by omega)]
    · have hall : BytePropertiesFormatter.areAllPrinted ⟨currentBytes, line⟩ :=
        (areAllPrinted_iff _).mpr (show 5 ≤ line by omega)
      rw [show 5 - v.dataRows b = 0 by omega, List.range'_zero, List.flatMap_nil, List.append_nil,
        Nat.max_eq_left (by omega)]
      cases G.rounds with
      | zero => rfl
      | succ rounds => rw [drawRemaining, if_pos hall]
  simp only [printFrame, hbytes, h.current, hdata, hfirst, Option.bind_eq_bind, Option.bind_some,
    hremaining, List.flatMap_append, List.append_assoc]

end Frame

end HexView

/-! ## Pictures -/

namespace HexView

variable {X : XiRope UInt8}

/-- The cells of a row, with the line about the current bytes. -/
def frameCells (G : DrawEnv) (v : HexView X) (b : CurrentBuffer X) (currentBytes : List UInt8)
    (k : Nat) : List (Cell Color) :=
  Brush.cells ⟨.reset, .reset⟩ ((v.rowOps b k) ++ lineAt G currentBytes k)

/-- The cells of each row when all of a view is drawn: rows of data and the first five rows, and
blank ones behind them. -/
def picture (G : DrawEnv) (v : HexView X) : Option (Nat → List (Cell Color)) := do
  let b ← v.current
  let currentBytes ← v.currentBytes
  some fun k ↦
    if k < max (v.dataRows b) 5 then
      frameCells G v b currentBytes k
    else []

/-- The columns of the longest row: those of its bytes, and the binary digits of four bytes. -/
def frameWidth : Nat := 136

/-- The display has the size that the view is drawn for and is wide enough for every row, and
what is drawn next starts on the default background. -/
structure Fits (v : HexView X) (d : Display Color) : Prop where
  width : d.width = v.size.1
  height : d.height = v.size.2
  wide : frameWidth < v.size.1
  background : d.brush.background = .reset

/-- The display shows the view on all rows but that of the status line. -/
structure Shows (G : DrawEnv) (v : HexView X) (d : Display Color) : Prop extends v.Fits d where
  rows : ∃ rows ∈ v.picture G, ∀ k < v.size.2 - 1, d.lines k = lineOf .reset (rows k)

section Shows

variable {G : DrawEnv} {v : HexView X} {b : CurrentBuffer X} {currentBytes : List UInt8}
  {d : Display Color} {ops : List TermOp}

variable (G currentBytes) in
private theorem drawnInLine_lineAt (k : Nat) :
    BytePropertiesFormatter.DrawnInLine (lineAt G currentBytes k) := by
  unfold lineAt
  cases h : BytePropertiesFormatter.lineOps G.reader G.printable ⟨currentBytes, k⟩ with
  | none => exact BytePropertiesFormatter.drawnInLine_nil
  | some ops => exact BytePropertiesFormatter.drawnInLine_lineOps _ _ h

/-- Operations that leave the default background do not change how the view fits. -/
theorem Fits.run (hd : v.Fits d) (hops : RestoresBackground Color.reset ops) :
    v.Fits (d.run ops) := by
  obtain ⟨hw, hh, hb⟩ := d.frame_run ops
  exact ⟨hw.trans hd.width, hh.trans hd.height, hd.wide, by rw [hb]; exact hops _ hd.background⟩

private theorem length_frameCells_le (hfour : currentBytes.length ≤ 4) (k : Nat) :
    (frameCells G v b currentBytes k).length ≤ frameWidth := by
  have hrow : (textOf (v.rowOps b k)).length = 70 := by
    unfold rowOps
    split
    · exact length_textOf_row b _ _
    · rfl
  have hline : (textOf (lineAt G currentBytes k)).length ≤ 66 := by
    unfold lineAt
    cases h : BytePropertiesFormatter.lineOps G.reader G.printable ⟨currentBytes, k⟩ with
    | none => exact Nat.zero_le _
    | some ops => exact BytePropertiesFormatter.length_lineOps_le hfour h
  rw [frameCells, ← List.length_map Cell.char, map_char_cells, textOf_append, List.length_append,
    frameWidth]
  omega

private theorem Views.drawsLine_frameRow (h : v.Views b) (G : DrawEnv) (currentBytes : List UInt8)
    (k : Nat) :
    DrawsLine Color.reset k (frameCells G v b currentBytes k) (frameRow G v b currentBytes k) := by
  have hrow : BytePropertiesFormatter.DrawnInLine (v.rowOps b k) := by
    unfold rowOps
    split
    · have haligned := h.aligned
      exact drawnInLine_row h.within _ (by omega)
    · exact drawnInLine_empty
  have hall := hrow.append (drawnInLine_lineAt G currentBytes k)
  exact drawsLine_of_inline hall.inline hall.settles hall.background

/-- The rows that a frame draws are those of the picture; the others are kept, or cleared before
all rows are drawn. -/
theorem Views.run_printFrame (h : v.Views b) {rows : Nat → List (Cell Color)}
    (hp : v.picture G = some rows) (hrounds : 5 ≤ G.rounds) {invalidatedRows : Option (List Nat)}
    (hrows : ∀ k < 5, Drawn invalidatedRows k)
    (hops : v.printFrame G invalidatedRows = some ops) (hd : v.Fits d) :
    v.Fits (d.run ops) ∧
      ∀ k < v.size.2 - 1, (d.run ops).lines k =
        if Drawn invalidatedRows k ∧ k < max (v.dataRows b) 5 then lineOf .reset (rows k)
        else if invalidatedRows.isNone then lineOf .reset [] else d.lines k := by
  rw [picture, h.current, Option.bind_eq_bind, Option.bind_some] at hp
  obtain ⟨currentBytes, hbytes, hp⟩ := Option.bind_eq_some_iff.mp hp
  obtain rfl := Option.some.inj hp
  rw [printFrame_eq h hbytes hrounds hrows, Option.some.injEq] at hops
  set drawn := (List.range (v.dataRows b)).filter (Drawn invalidatedRows) ++
    List.range' (v.dataRows b) (5 - v.dataRows b) with hdrawn
  have hfive := h.five
  have hmem : ∀ k, k ∈ drawn ↔ Drawn invalidatedRows k ∧ k < max (v.dataRows b) 5 := by
    intro k
    simp only [hdrawn, List.mem_append, List.mem_filter, List.mem_range, List.mem_range'_1]
    constructor
    · rintro (⟨hk, hyes⟩ | hk)
      · exact ⟨hyes, by omega⟩
      · exact ⟨hrows k (by omega), by omega⟩
    · rintro ⟨hyes, hk⟩
      rcases Nat.lt_or_ge k (v.dataRows b) with hlt | hge
      · exact .inl ⟨hlt, hyes⟩
      · exact .inr (by omega)
  have hscreen : ∀ k ∈ drawn, k < v.size.2 := by
    intro k hk
    have hlt := ((hmem k).mp hk).2
    rcases Nat.lt_or_ge k (v.dataRows b) with hdata | hge
    · have := (h.lt_dataRows_iff.mp hdata).1
      omega
    · omega
  have hline (k : Nat) := h.drawsLine_frameRow G currentBytes k
  rw [← hops, Display.run_append]
  have hbase : (d.run (if invalidatedRows.isNone then [.moveTo 0 0, .clearAll] else [])).lines =
      if invalidatedRows.isNone then fun _ ↦ lineOf .reset [] else d.lines := by
    split
    · simp only [Display.run_cons, Display.run_nil, Display.exec, hd.background]
    · rfl
  have hfits : v.Fits
      (d.run (if invalidatedRows.isNone then [.moveTo 0 0, .clearAll] else [])) := by
    refine hd.run ?_
    split <;> exact fun _ hb ↦ hb
  refine ⟨hfits.run (.flatMap fun k _ ↦ (hline k).background), fun k _ ↦ ?_⟩
  rw [run_flatMap_drawsLine (fun k _ ↦ hline k) _ hfits.background
    (fun k hk ↦ by rw [hfits.height]; exact hscreen k hk)
    (fun k _ ↦ by
      rw [hfits.width]
      exact Nat.lt_of_le_of_lt (length_frameCells_le (h.length_currentBytes hbytes) k) hd.wide),
    hbase]
  simp only [hmem]
  split
  · next hyes => rw [if_pos hyes.2]
  · split <;> rfl

/-- Drawing all of a view shows it. -/
theorem Views.shows_draw (h : v.Views b) (hrounds : 5 ≤ G.rounds)
    (hops : v.printFrame G none = some ops) (hd : v.Fits d) : v.Shows G (d.run ops) := by
  obtain ⟨currentBytes, hbytes, -⟩ := Option.bind_eq_some_iff.mp hops
  obtain ⟨rows, hp⟩ : ∃ rows, v.picture G = some rows := by
    rw [picture, h.current, hbytes]
    exact ⟨_, rfl⟩
  obtain ⟨hfits, hlines⟩ := h.run_printFrame hp hrounds (fun _ _ ↦ rfl) hops hd
  refine ⟨hfits, rows, hp, fun k hk ↦ ?_⟩
  rw [hlines k hk]
  split
  · rfl
  · next hout =>
    rw [picture, h.current, hbytes] at hp
    obtain rfl := Option.some.inj hp
    simp only [Option.isNone_none, if_true, if_neg fun hlt ↦ hout ⟨rfl, hlt⟩]

/-- Drawing some rows shows the view when it is shown on the others already. -/
theorem Views.shows_drawRows (h : v.Views b) {rows : Nat → List (Cell Color)}
    (hp : v.picture G = some rows) (hrounds : 5 ≤ G.rounds) {invalidatedRows : List Nat}
    (hrows : ∀ k < 5, k ∈ invalidatedRows)
    (hops : v.printFrame G (some invalidatedRows) = some ops) (hd : v.Fits d)
    (hkept : ∀ k < v.size.2 - 1, 5 ≤ k → k ∉ invalidatedRows ∨ v.dataRows b ≤ k →
      d.lines k = lineOf .reset (rows k)) : v.Shows G (d.run ops) := by
  have hdrawn : ∀ k < 5, Drawn (some invalidatedRows) k := fun k hk ↦
    decide_eq_true (hrows k hk)
  obtain ⟨hfits, hlines⟩ := h.run_printFrame hp hrounds hdrawn hops hd
  refine ⟨hfits, rows, hp, fun k hk ↦ ?_⟩
  rw [hlines k hk]
  split
  · rfl
  · next hout =>
    simp only [Drawn, decide_eq_true_eq, not_and] at hout
    refine hkept k hk ?_ ?_
    · by_contra hlt
      exact hout (hrows k (by omega)) (by omega)
    · by_cases hin : k ∈ invalidatedRows
      · have := hout hin
        exact .inr (by omega)
      · exact .inl hin

/-- A display that shows the view has every visible byte in its place. -/
theorem Views.look_byte (h : v.Views b) (hs : v.Shows G d) {i : Nat} {byte : UInt8}
    (hbyte : b.data[i]? = some byte) (hstart : v.startOffset ≤ i)
    (hvisible : i < v.startOffset + (v.size.2 - 1) * 16) :
    let row := (i - v.startOffset) / 16
    let column := (i - v.startOffset) % 16
    let shown := highlight v.mode.hasHalfCursor i (regionAt b.selection.regions i)
    (d.lines row (1 + 3 * column)).look = ((byte.toNat / 16).digitChar, shown.1) ∧
      (d.lines row (2 + 3 * column)).look = ((byte.toNat % 16).digitChar, shown.2) ∧
      (d.lines row (51 + column)).look = (asciiChar byte, shown.1) := by
  intro row column shown
  obtain ⟨rows, hp, hlines⟩ := hs.rows
  rw [picture, h.current, Option.bind_eq_bind, Option.mem_def, Option.bind_some] at hp
  obtain ⟨currentBytes, -, hp⟩ := Option.bind_eq_some_iff.mp hp
  obtain rfl := Option.some.inj hp
  have hlen := (List.getElem?_eq_some_iff.mp hbyte).1
  have haligned := h.aligned
  have hi : v.startOffset + row * 16 + column = i := by omega
  have hdata : row < v.dataRows b := h.lt_dataRows_iff.mpr ⟨by omega, by omega⟩
  have hget : (b.rowBytes (v.startOffset + row * 16))[column]? = some byte := by
    rw [CurrentBuffer.rowBytes, List.getElem?_take_of_lt (by omega), List.getElem?_drop, hi, hbyte]
  have hhex := look_hexColumn v.mode.hasHalfCursor h.within (by omega) hget
    (lineAt G currentBytes row)
  have hascii := look_asciiColumn v.mode.hasHalfCursor h.within (by omega) hget
    (lineAt G currentBytes row)
  rw [hi] at hhex hascii
  have hline : d.lines row = lineOf .reset (Brush.cells ⟨.reset, .reset⟩
      ((b.row v.mode.hasHalfCursor (v.startOffset + row * 16)) ++
        lineAt G currentBytes row)) := by
    rw [hlines row (by omega)]
    simp only [if_pos (show row < max (v.dataRows b) 5 by omega), frameCells, rowOps, if_pos hdata]
  have hlook {c : Nat} {look : Char × Color} {cells : List (Cell Color)}
      (h : (cells[c]?).map Cell.look = some look) : (lineOf .reset cells c).look = look := by
    obtain ⟨cell, hcell, rfl⟩ := Option.map_eq_some_iff.mp h
    rw [lineOf, List.getD_eq_getElem?_getD, hcell, Option.getD_some]
  rw [hline]
  exact ⟨hlook hhex.1, hlook hhex.2, hlook hascii⟩

-- Two bytes, with a cursor on the second one.
private def twoBytes : HexView (XiRope.reference UInt8) :=
  withBuffrCollection (.withCurrentBuffer (.withRegions [0x41, 0xf7] [⟨1, 1, true⟩])) (140, 6)

end Shows

end HexView

end Tofu
