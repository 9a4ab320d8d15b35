import Tofu.View.ByteLines
import Tofu.View.Inspected

/-!
# Rows

What `draw_row` (`src/src/hex_view/view.rs:820–894`) makes of a row of the data, in closed form:
every byte has the command of the region it is in, and its digits and its character stand in
fixed columns. A row leaves the default background, so the rows of a drawing do not depend on
each other.
-/

namespace Tofu

open Rope

variable {X : XiRope UInt8}

/-! ## What a row shows -/

/-- The bytes of a row. -/
def CurrentBuffer.rowBytes (b : CurrentBuffer X) (i : Nat) : List UInt8 := (b.data.drop i).take 16

/-- The style of what is behind the last byte, which may be in a region. -/
def endStyleAt (halfCursor : Bool) (len : Nat) (region : Option SelRegion) :
    Option StylingCommand :=
  region.map fun r ↦
    (if r.caret = len then
      if halfCursor then ({} : StylingCommand).withMidStyle emptyCaretStyle
      else ({} : StylingCommand).withStartStyle emptyCaretStyle
    else {}).withEndStyle defaultStyle

/-- The end of the data is on one row. -/
def CurrentBuffer.rowEnd (b : CurrentBuffer X) (halfCursor : Bool) (i : Nat) :
    Option StylingCommand :=
  if b.data.length < i + 16 then
    endStyleAt halfCursor b.data.length (regionAt b.selection.regions b.data.length)
  else none

/-- A text of so many blanks. -/
def blanks (n : Nat) : String := String.ofList (List.replicate n ' ')

/-- A row of bytes and their commands, each column as wide as on a full row. -/
def paddedRow (bytes : List UInt8) (marks : List StylingCommand)
    (endStyle : Option StylingCommand) : List TermOp :=
  rowCommands bytes marks endStyle
    (blanks (3 * (16 - bytes.length) - if endStyle.isSome then 2 else 0))
    (blanks (17 - bytes.length - if endStyle.isSome then 1 else 0))

/-- The row of the data from an offset on. -/
def CurrentBuffer.row (b : CurrentBuffer X) (halfCursor : Bool) (i : Nat) : List TermOp :=
  paddedRow (b.rowBytes i)
    ((List.range' i (b.rowBytes i).length).map fun j ↦
      markAt 16 halfCursor j (regionAt b.selection.regions j))
    (b.rowEnd halfCursor i)

/-! ## Colours along a row -/

private theorem regionAt_eq_some_iff {regions : List SelRegion} (hs : regions.Pairwise Before)
    {i : Nat}
    {r : SelRegion} : regionAt regions i = some r ↔ r ∈ regions ∧ r.min ≤ i ∧ i ≤ r.max := by
  constructor
  · intro h
    have hin := List.find?_some h
    exact ⟨List.mem_of_find?_eq_some h, of_decide_eq_true hin⟩
  · rintro ⟨hr, hin⟩
    have hsome : (regionAt regions i).isSome :=
      List.find?_isSome.mpr ⟨r, hr, by simpa using hin⟩
    obtain ⟨r', hr'⟩ := Option.isSome_iff_exists.mp hsome
    have hmem : r' ∈ regions := List.mem_of_find?_eq_some hr'
    have hin' := List.find?_some hr'
    simp only [decide_eq_true_eq] at hin'
    rw [hr', Option.some.injEq]
    by_contra hne
    have hsep : Before r r' ∨ Before r' r := by
      refine List.Pairwise.forall_of_forall_of_flip
        (R := fun a b ↦ b ≠ a → Before a b ∨ Before b a) (fun _ _ h ↦ absurd rfl h)
        (hs.imp fun h _ ↦ .inl h) (hs.imp fun h _ ↦ ?_) hr hmem hne
      exact .inr h
    unfold Before at hsep
    omega

/-- The background in which the byte at an offset is entered along a row. -/
def enters (regions : List SelRegion) (i : Nat) : Color :=
  match regionAt regions i with
  | some r => if r.min < i then r.selectionBackground else .reset
  | none => .reset

section Backgrounds

variable {regions : List SelRegion} {halfCursor : Bool}

/-- What a byte leaves for the next one: its background in a region that goes on, and at the
end of a line the default one. -/
def leavesAt (regions : List SelRegion) (i : Nat) : Color :=
  if (i + 1) % 16 = 0 then .reset else enters regions (i + 1)

private theorem enters_succ (hs : regions.Pairwise Before) (i : Nat) :
    enters regions (i + 1) =
      match regionAt regions i with
      | some r => if r.max = i then .reset else r.selectionBackground
      | none => .reset := by
  have hfresh (h : ∀ r ∈ regions, r.min ≤ i → r.max ≤ i) : enters regions (i + 1) = .reset := by
    unfold enters
    split
    · next r hr =>
      obtain ⟨hmem, hmin, hmax⟩ := (regionAt_eq_some_iff hs).mp hr
      have := h r hmem
      exact if_neg (by omega)
    · rfl
  cases hregion : regionAt regions i with
  | none =>
    refine hfresh fun r hr hmin ↦ ?_
    have hout := List.find?_eq_none.mp hregion r hr
    simp only [decide_eq_true_eq] at hout
    omega
  | some r =>
    obtain ⟨hmem, hmin, hmax⟩ := (regionAt_eq_some_iff hs).mp hregion
    by_cases hlast : r.max = i
    · simp only [hlast, if_true]
      refine hfresh fun r' hr' hmin' ↦ ?_
      by_contra hgt
      have heq := (regionAt_eq_some_iff hs).mpr ⟨hr', hmin', show i ≤ r'.max by omega⟩
      rw [hregion, Option.some.injEq] at heq
      rw [← heq, hlast] at hgt
      exact hgt (Nat.le_refl i)
    · have hnext := (regionAt_eq_some_iff hs).mpr
        ⟨hmem, show r.min ≤ i + 1 by omega, show i + 1 ≤ r.max by omega⟩
      simp only [enters, hnext, if_neg hlast]
      exact if_pos (by omega)

/-- The styles a command chooses leave a background, in the column of digits and in that of
characters. -/
theorem leaves_markAt (hs : regions.Pairwise Before) {i : Nat} {background : Color}
    (hbg : i % 16 = 0 ∨ background = enters regions i) :
    (markAt 16 halfCursor i (regionAt regions i)).leaves background = leavesAt regions i ∧
      ContentStyle.over (markAt 16 halfCursor i (regionAt regions i)).endStyle
        ((markAt 16 halfCursor i (regionAt regions i)).first background) = leavesAt regions i := by
  rw [leavesAt, enters_succ hs]
  unfold enters at hbg
  by_cases hend : (i + 1) % 16 = 0
  · rw [if_pos hend]
    cases regionAt regions i <;>
      simp [markAt, lineCommand, hend, StylingCommand.leaves, StylingCommand.endStyle]
  · rw [if_neg hend]
    cases hregion : regionAt regions i with
    | none =>
      rw [hregion] at hbg
      by_cases hline : i % 16 = 0
      · simp [markAt, lineCommand, hend, hline, StylingCommand.leaves, StylingCommand.second,
          StylingCommand.first, StylingCommand.startStyle, StylingCommand.midStyle,
          StylingCommand.endStyle]
      · simp [markAt, lineCommand, hend, hline, StylingCommand.leaves, StylingCommand.second,
          StylingCommand.first, StylingCommand.startStyle, StylingCommand.midStyle,
          StylingCommand.endStyle, hbg.resolve_left hline]
    | some r =>
      obtain ⟨-, hmin, -⟩ := (regionAt_eq_some_iff hs).mp hregion
      rw [hregion] at hbg
      by_cases hcaret : r.caret = i
      · by_cases hlast : r.max = i <;>
          simp [markAt, lineCommand, regionCommand, hend, hcaret, hlast, StylingCommand.leaves,
            StylingCommand.endStyle]
      · by_cases hlast : r.max = i
        · simp [markAt, lineCommand, regionCommand, hend, hlast, StylingCommand.leaves,
            StylingCommand.endStyle]
        · have hfirst :
              (markAt 16 halfCursor i (some r)).first background = r.selectionBackground := by
            by_cases hopens : r.min = i
            · simp [markAt, lineCommand, regionCommand, hcaret, hopens, StylingCommand.first,
                StylingCommand.startStyle]
            · by_cases hline : i % 16 = 0
              · simp [markAt, lineCommand, regionCommand, hcaret, hopens, hline,
                  StylingCommand.first, StylingCommand.startStyle]
              · have hbg := hbg.resolve_left hline
                simp only [if_pos (show r.min < i by omega)] at hbg
                simp [markAt, lineCommand, regionCommand, hcaret, hopens, hline,
                  StylingCommand.first, StylingCommand.startStyle, hbg]
          rw [StylingCommand.leaves, StylingCommand.second, hfirst]
          simp [markAt, lineCommand, regionCommand, hend, hcaret, hlast,
            StylingCommand.endStyle, StylingCommand.midStyle]

/-- A background from which bytes are drawn in a row, and the one behind them. -/
theorem background_after_row {f : UInt8 → StylingCommand → List TermOp}
    (hf : ∀ (brush : Brush Color) byte i, i % 16 = 0 ∨ brush.background = enters regions i →
      (brush.after (f byte (markAt 16 halfCursor i (regionAt regions i)))).background =
        leavesAt regions i) (bytes : List UInt8) {i : Nat} (hi : i % 16 + bytes.length ≤ 16)
    {brush : Brush Color}
    (hbrush : brush.background = if i % 16 = 0 then .reset else enters regions i) :
    (brush.after ((bytes.zip ((List.range' i bytes.length).map fun j ↦
        markAt 16 halfCursor j (regionAt regions j))).flatMap
          fun (byte, cmd) ↦ f byte cmd)).background =
      if (i + bytes.length) % 16 = 0 then .reset else enters regions (i + bytes.length) := by
  induction bytes generalizing i brush with
  | nil => exact hbrush
  | cons byte bytes ih =>
    rw [List.length_cons, List.range'_succ, List.map_cons, List.zip_cons_cons, List.flatMap_cons,
      Brush.after_append]
    have hstep := hf brush byte i (by
      by_cases hline : i % 16 = 0
      · exact .inl hline
      · rw [if_neg hline] at hbrush
        exact .inr hbrush)
    rw [show i + (bytes.length + 1) = i + 1 + bytes.length by omega]
    rw [List.length_cons] at hi
    by_cases hend : (i + 1) % 16 = 0
    · obtain rfl : bytes = [] := List.eq_nil_of_length_eq_zero (by omega)
      simpa [leavesAt, hend] using hstep
    · refine ih (by omega) ?_
      rw [hstep, leavesAt]

private theorem background_drawHexRow (halfCursor : Bool) (hs : regions.Pairwise Before)
    (bytes : List UInt8) {i : Nat} (hi : i % 16 + bytes.length ≤ 16) {brush : Brush Color}
    (hbrush : brush.background = if i % 16 = 0 then .reset else enters regions i) :
    (brush.after (drawHexRow (bytes.zip ((List.range' i bytes.length).map fun j ↦
        markAt 16 halfCursor j (regionAt regions j))))).background =
      if (i + bytes.length) % 16 = 0 then .reset else enters regions (i + bytes.length) := by
  refine background_after_row (fun brush byte j hbg ↦ ?_) bytes hi hbrush
  rw [(printed_drawHexByte brush byte _).2, (leaves_markAt hs hbg).1]

private theorem background_drawAsciiByte (brush : Brush Color) (byte : UInt8)
    (cmd : StylingCommand) :
    (brush.after (drawAsciiByte byte cmd)).background =
      ContentStyle.over cmd.endStyle (cmd.first brush.background) := by
  simp only [drawAsciiByte, Brush.after_append, Brush.after_cons, Brush.after_nil, Brush.apply,
    background_after_queueCommand]
  rfl

private theorem background_drawAsciiRow (halfCursor : Bool) (hs : regions.Pairwise Before)
    (bytes : List UInt8) {i : Nat} (hi : i % 16 + bytes.length ≤ 16) {brush : Brush Color}
    (hbrush : brush.background = if i % 16 = 0 then .reset else enters regions i) :
    (brush.after (drawAsciiRow (bytes.zip ((List.range' i bytes.length).map fun j ↦
        markAt 16 halfCursor j (regionAt regions j))))).background =
      if (i + bytes.length) % 16 = 0 then .reset else enters regions (i + bytes.length) := by
  refine background_after_row (fun brush byte j hbg ↦ ?_) bytes hi hbrush
  rw [background_drawAsciiByte, (leaves_markAt hs hbg).2]

end Backgrounds

/-! ## Rows on the display -/

section Drawn

variable {X : XiRope UInt8} {b : CurrentBuffer X}

private theorem inLine_drawBlank (cmd : StylingCommand) : InLine (drawText " " cmd) :=
  ((inLine_queueCommand _).append (.blanks 1)).append (inLine_queueCommand _)

private theorem inLine_drawSeparator : InLine drawSeparator :=
  .setForegroundColor (by simp [DisplayOp.inline]) _

private theorem inLine_flatMap {f : UInt8 → StylingCommand → List TermOp}
    (h : ∀ byte cmd, InLine (f byte cmd)) (styled : List (UInt8 × StylingCommand)) :
    InLine (styled.flatMap fun (byte, cmd) ↦ f byte cmd) :=
  .flatMap fun a _ ↦ h a.1 a.2

/-- A row stays on its line. -/
theorem inLine_paddedRow (bytes : List UInt8) (marks : List StylingCommand)
    (endStyle : Option StylingCommand) :
    InLine (paddedRow bytes marks endStyle) := by
  have hhexEnd : InLine ((endStyle.map fun styleCmd ↦ drawText " " styleCmd.withMidToEnd ++
      drawText " " styleCmd.takeEndOnly).getD []) := by
    cases endStyle with
    | none => exact .nil
    | some styleCmd => exact (inLine_drawBlank _).append (inLine_drawBlank _)
  have hasciiEnd : InLine ((endStyle.map fun styleCmd ↦
      drawText " " styleCmd.takeEndOnly).getD []) := by
    cases endStyle with
    | none => exact .nil
    | some styleCmd => exact inLine_drawBlank _
  simp only [paddedRow, rowCommands]
  exact (((((((InLine.blanks 1).append (inLine_flatMap inLine_drawHexByte _)).append
    hhexEnd).append (.blanks _)).append inLine_drawSeparator).append
    (inLine_flatMap inLine_drawAsciiByte _)).append hasciiEnd).append (.blanks _) |>.append
    inLine_drawSeparator

/-- Behind the last byte of the data, a region that is left goes on to the end. -/
theorem enters_of_rowEnd_none {halfCursor : Bool} {i : Nat}
    (hend : b.rowEnd halfCursor i = none) (hi : i % 16 = 0) :
    (if (i + (b.rowBytes i).length) % 16 = 0 then .reset
      else enters b.selection.regions (i + (b.rowBytes i).length)) = Color.reset := by
  have hlen : (b.rowBytes i).length = min 16 (b.data.length - i) := by
    rw [CurrentBuffer.rowBytes, List.length_take, List.length_drop]
  split
  · rfl
  · next hmid =>
    have hlast : b.data.length < i + 16 ∧ i + (b.rowBytes i).length = b.data.length := by omega
    have hnone : regionAt b.selection.regions b.data.length = none := by
      rw [CurrentBuffer.rowEnd, if_pos hlast.1] at hend
      exact Option.map_eq_none_iff.mp hend
    rw [hlast.2, enters, hnone]

/-- A row up to the separator behind its digits. -/
def leftColumn (bytes : List UInt8) (marks : List StylingCommand)
    (endStyle : Option StylingCommand) : List TermOp :=
  [.print " "] ++ drawHexRow (bytes.zip marks) ++
    (endStyle.map fun styleCmd ↦
      drawText " " styleCmd.withMidToEnd ++ drawText " " styleCmd.takeEndOnly).getD [] ++
    [.print (blanks (3 * (16 - bytes.length) - if endStyle.isSome then 2 else 0))] ++ drawSeparator

/-- What follows of it. -/
def rightColumn (bytes : List UInt8) (marks : List StylingCommand)
    (endStyle : Option StylingCommand) : List TermOp :=
  drawAsciiRow (bytes.zip marks) ++
    (endStyle.map fun styleCmd ↦ drawText " " styleCmd.takeEndOnly).getD [] ++
    [.print (blanks (17 - bytes.length - if endStyle.isSome then 1 else 0))] ++ drawSeparator

private theorem paddedRow_eq (bytes : List UInt8) (marks : List StylingCommand)
    (endStyle : Option StylingCommand) :
    paddedRow bytes marks endStyle =
      leftColumn bytes marks endStyle ++ rightColumn bytes marks endStyle := by
  simp only [paddedRow, rowCommands, leftColumn, rightColumn, List.append_assoc]

/-- The column of digits leaves the default background, and so does that of characters. -/
theorem background_columns (halfCursor : Bool) (hs : b.SelectsWithin) {i : Nat} (hi : i % 16 = 0)
    (brush : Brush Color) (hbrush : brush.background = .reset) :
    let marks := (List.range' i (b.rowBytes i).length).map fun j ↦
      markAt 16 halfCursor j (regionAt b.selection.regions j)
    (brush.after (leftColumn (b.rowBytes i) marks (b.rowEnd halfCursor i))).background = .reset ∧
      (brush.after (rightColumn (b.rowBytes i) marks (b.rowEnd halfCursor i))).background =
        .reset := by
  intro marks
  have hlen : i % 16 + (b.rowBytes i).length ≤ 16 := by
    rw [CurrentBuffer.rowBytes, List.length_take]
    omega
  have hstart : brush.background =
      if i % 16 = 0 then .reset else enters b.selection.regions i := by
    rw [if_pos hi, hbrush]
  have hhex := background_drawHexRow halfCursor hs.valid.sorted (b.rowBytes i) hlen hstart
  have hascii := background_drawAsciiRow halfCursor hs.valid.sorted (b.rowBytes i) hlen hstart
  cases hend : b.rowEnd halfCursor i with
  | none =>
    rw [enters_of_rowEnd_none hend hi] at hhex hascii
    simp only [leftColumn, rightColumn, Option.map_none, Option.getD_none, List.append_nil,
      Brush.after_append, Brush.after_cons, Brush.after_nil, Brush.apply, drawSeparator]
    exact ⟨hhex, hascii⟩
  | some styleCmd =>
    obtain ⟨cmd, rfl⟩ : ∃ cmd : StylingCommand, styleCmd = cmd.withEndStyle defaultStyle := by
      unfold CurrentBuffer.rowEnd at hend
      split at hend
      · obtain ⟨r, -, hr⟩ := Option.map_eq_some_iff.mp hend
        exact ⟨_, hr.symm⟩
      · cases hend
    have hreset (brush : Brush Color) : (brush.after (drawText " "
        (cmd.withEndStyle defaultStyle).takeEndOnly)).background = .reset := by
      simp only [drawText, Brush.after_append, background_after_queueCommand]
      rfl
    simp only [leftColumn, rightColumn, Option.map_some, Option.getD_some, Brush.after_append,
      Brush.after_cons, Brush.after_nil, Brush.apply, drawSeparator]
    exact ⟨hreset _, hreset _⟩

/-- A row of data stays in its line and leaves the default background. -/
theorem drawnInLine_row (hs : b.SelectsWithin) (halfCursor : Bool) {i : Nat} (hi : i % 16 = 0) :
    BytePropertiesFormatter.DrawnInLine (b.row halfCursor i) := by
  refine ⟨inLine_paddedRow .., fun brush hbrush ↦ ?_⟩
  rw [CurrentBuffer.row, paddedRow_eq, Brush.after_append]
  exact (background_columns halfCursor hs hi _
    (background_columns halfCursor hs hi brush hbrush).1).2

/-- A row without data. -/
theorem drawnInLine_empty :
    BytePropertiesFormatter.DrawnInLine (paddedRow [] [] none) :=
  ⟨inLine_paddedRow .., fun _ h ↦ h⟩

end Drawn

/-! ## What a picture says of a byte -/

/-- The character of a byte in the right column, `hex_view/mod.rs:158–168`. -/
def asciiChar (byte : UInt8) : Char :=
  if isAsciiGraphic byte || byte == 0x20 then Char.ofNat byte.toNat else '.'

section Looks

variable {regions : List SelRegion} {halfCursor : Bool}

private theorem toList_byteAsciiRepr (byte : UInt8) :
    (byteAsciiRepr byte).toList = [asciiChar byte] := by
  unfold byteAsciiRepr asciiChar
  split
  · exact String.toList_ofList
  · rfl

/-- The command of a byte shows it in the colours of the region it is in. -/
theorem first_second_markAt (halfCursor : Bool) (hs : regions.Pairwise Before) {i : Nat}
    {background : Color} (hbg : i % 16 = 0 ∨ background = enters regions i) :
    ((markAt 16 halfCursor i (regionAt regions i)).first background,
        (markAt 16 halfCursor i (regionAt regions i)).second background) =
      highlight halfCursor i (regionAt regions i) := by
  unfold enters at hbg
  cases hregion : regionAt regions i with
  | none =>
    rw [hregion] at hbg
    by_cases hline : i % 16 = 0
    · simp [markAt, lineCommand, hline, highlight, StylingCommand.second, StylingCommand.first,
        StylingCommand.startStyle, StylingCommand.midStyle]
    · simp [markAt, lineCommand, hline, highlight, StylingCommand.second, StylingCommand.first,
        StylingCommand.startStyle, StylingCommand.midStyle, hbg.resolve_left hline]
  | some r =>
    obtain ⟨-, hmin, -⟩ := (regionAt_eq_some_iff hs).mp hregion
    rw [hregion] at hbg
    by_cases hcaret : r.caret = i
    · cases halfCursor <;>
        simp [markAt, lineCommand, regionCommand, hcaret, highlight, StylingCommand.second,
          StylingCommand.first, StylingCommand.startStyle, StylingCommand.midStyle]
    · by_cases hopens : r.min = i
      · simp [markAt, lineCommand, regionCommand, hcaret, hopens, highlight,
          StylingCommand.second, StylingCommand.first, StylingCommand.startStyle,
          StylingCommand.midStyle]
      · by_cases hline : i % 16 = 0
        · simp [markAt, lineCommand, regionCommand, hcaret, hopens, hline, highlight,
            StylingCommand.second, StylingCommand.first, StylingCommand.startStyle,
            StylingCommand.midStyle]
        · have hbg := hbg.resolve_left hline
          simp only [if_pos (show r.min < i by omega)] at hbg
          simp [markAt, lineCommand, regionCommand, hcaret, hopens, hline, highlight,
            StylingCommand.second, StylingCommand.first, StylingCommand.startStyle,
            StylingCommand.midStyle, hbg]

private theorem length_textOf_flatMap {f : UInt8 → StylingCommand → List TermOp} {width : Nat}
    (h : ∀ byte cmd, (textOf (f byte cmd)).length = width)
    (styled : List (UInt8 × StylingCommand)) :
    (textOf (styled.flatMap fun (byte, cmd) ↦ f byte cmd)).length =
      styled.length * width := by
  induction styled with
  | nil => rw [List.length_nil, Nat.zero_mul]; rfl
  | cons a styled ih =>
    rw [List.flatMap_cons, textOf_append, List.length_append, h, ih,
      List.length_cons, Nat.succ_mul, Nat.add_comm]

private theorem length_textOf_drawHexByte (byte : UInt8) (cmd : StylingCommand) :
    (textOf (drawHexByte byte cmd)).length = 3 := by
  rw [ByteProperties.textOf_drawHexByte]
  rfl

private theorem length_textOf_drawHexRow (styled : List (UInt8 × StylingCommand)) :
    (textOf (drawHexRow styled)).length = styled.length * 3 :=
  length_textOf_flatMap length_textOf_drawHexByte styled

private theorem length_textOf_drawAsciiByte (byte : UInt8) (cmd : StylingCommand) :
    (textOf (drawAsciiByte byte cmd)).length = 1 := by
  simp only [drawAsciiByte, textOf_append, textOf_queueCommand, List.nil_append, List.append_nil,
    textOf, toList_byteAsciiRepr]
  rfl

private theorem length_textOf_drawAsciiRow (styled : List (UInt8 × StylingCommand)) :
    (textOf (drawAsciiRow styled)).length = styled.length * 1 :=
  length_textOf_flatMap length_textOf_drawAsciiByte styled

end Looks

section Columns

variable {X : XiRope UInt8} {b : CurrentBuffer X} {halfCursor : Bool} {i j : Nat} {byte : UInt8}

private theorem exists_zip_eq {f : Nat → StylingCommand} {bytes : List UInt8}
    (hj : bytes[j]? = some byte) :
    ∃ rest, bytes.zip ((List.range' i bytes.length).map f) =
      (bytes.take j).zip ((List.range' i (bytes.take j).length).map f) ++
        (byte, f (i + j)) :: rest := by
  obtain ⟨hlt, hget⟩ := List.getElem?_eq_some_iff.mp hj
  refine ⟨(bytes.drop (j + 1)).zip ((List.range' (i + j + 1) (bytes.length - (j + 1))).map f), ?_⟩
  have hbytes : bytes = bytes.take j ++ byte :: bytes.drop (j + 1) := by
    rw [← hget, List.cons_getElem_drop_succ, List.take_append_drop]
  have hrange : List.range' i bytes.length =
      List.range' i j ++ (i + j) :: List.range' (i + j + 1) (bytes.length - (j + 1)) := by
    rw [← List.range'_succ, List.range'_append_1]
    congr 1
    omega
  have hlen : (bytes.take j).length = j := List.length_take_of_le (Nat.le_of_lt hlt)
  rw [hrange, hlen, List.map_append, List.map_cons]
  nth_rewrite 1 [hbytes]
  rw [List.zip_append (by rw [hlen, List.length_map, List.length_range']), List.zip_cons_cons]

/-- The columns of a row are as wide as those of a full row. -/
theorem length_textOf_columns {bytes : List UInt8} {marks : List StylingCommand}
    {endStyle : Option StylingCommand} (hmarks : marks.length = bytes.length)
    (hlen : bytes.length ≤ 16) (hend : endStyle.isSome → bytes.length < 16) :
    (textOf (leftColumn bytes marks endStyle)).length = 51 ∧
      (textOf (rightColumn bytes marks endStyle)).length = 19 := by
  have hblank (cmd : StylingCommand) :
      (textOf (drawText " " cmd)).length = 1 := by
    simp only [drawText, textOf_append, textOf_queueCommand]
    rfl
  have hblanks (n : Nat) : (textOf ([.print (blanks n)] : List TermOp)).length = n := by
    simp [textOf, blanks]
  have hfirst : (textOf ([.print " "] : List TermOp)).length = 1 := rfl
  have hseparator : (textOf drawSeparator).length = 2 := rfl
  have hzip : (bytes.zip marks).length = bytes.length := by
    rw [List.length_zip, hmarks, Nat.min_self]
  simp only [leftColumn, rightColumn, textOf_append, List.length_append, length_textOf_drawHexRow,
    length_textOf_drawAsciiRow, hzip, hseparator, hblanks, hfirst]
  cases endStyle with
  | none =>
    simp only [Option.map_none, Option.getD_none, Option.isSome_none, textOf, List.length_nil,
      Bool.false_eq_true, if_false]
    omega
  | some cmd =>
    have hshort := hend rfl
    simp only [Option.map_some, Option.getD_some, textOf_append, List.length_append, hblank,
      Option.isSome_some, if_true]
    omega

private theorem length_textOf_rowColumns (b : CurrentBuffer X) (halfCursor : Bool) (i : Nat) :
    let marks := (List.range' i (b.rowBytes i).length).map fun j ↦
      markAt 16 halfCursor j (regionAt b.selection.regions j)
    (textOf (leftColumn (b.rowBytes i) marks (b.rowEnd halfCursor i))).length = 51 ∧
      (textOf (rightColumn (b.rowBytes i) marks (b.rowEnd halfCursor i))).length = 19 := by
  have hlen : (b.rowBytes i).length = min 16 (b.data.length - i) := by
    rw [CurrentBuffer.rowBytes, List.length_take, List.length_drop]
  refine length_textOf_columns (by rw [List.length_map, List.length_range'])
    (by omega) fun hsome ↦ ?_
  have hshort : b.data.length < i + 16 := by
    unfold CurrentBuffer.rowEnd at hsome
    split at hsome
    · assumption
    · cases hsome
  omega

/-- A row of the data takes seventy columns, and so does one without data. -/
theorem length_textOf_row (b : CurrentBuffer X) (halfCursor : Bool) (i : Nat) :
    (textOf (b.row halfCursor i)).length = 70 := by
  obtain ⟨hleft, hright⟩ := length_textOf_rowColumns b halfCursor i
  rw [CurrentBuffer.row, paddedRow_eq, textOf_append, List.length_append, hleft, hright]

/-- The operations of a row around those of one of its bytes, and the background in which it is
entered, in the column of digits and in that of characters. -/
theorem exists_around (halfCursor : Bool) {f : UInt8 → StylingCommand → List TermOp}
    {width : Nat}
    (hwidth : ∀ byte cmd, (textOf (f byte cmd)).length = width)
    (hleaves : ∀ (brush : Brush Color) byte i,
      i % 16 = 0 ∨ brush.background = enters b.selection.regions i →
        (brush.after (f byte (markAt 16 halfCursor i
          (regionAt b.selection.regions i)))).background =
          leavesAt b.selection.regions i)
    (hi : i % 16 = 0) (hj : (b.rowBytes i)[j]? = some byte) :
    ∃ before behind,
      (((b.rowBytes i).zip ((List.range' i (b.rowBytes i).length).map fun j ↦
        markAt 16 halfCursor j (regionAt b.selection.regions j))).flatMap
          fun (byte, cmd) ↦ f byte cmd) =
        before ++ (f byte (markAt 16 halfCursor (i + j) (regionAt b.selection.regions (i + j))) ++
          behind) ∧
      (textOf before).length = j * width ∧
      ∀ brush : Brush Color, brush.background = .reset → (i + j) % 16 = 0 ∨
        (brush.after before).background = enters b.selection.regions (i + j) := by
  obtain ⟨hjlt, -⟩ := List.getElem?_eq_some_iff.mp hj
  have htake : ((b.rowBytes i).take j).length = j := List.length_take_of_le (Nat.le_of_lt hjlt)
  have hle : (b.rowBytes i).length ≤ 16 := List.length_take_le ..
  obtain ⟨rest, hzip⟩ := exists_zip_eq (i := i)
    (f := fun j ↦ markAt 16 halfCursor j (regionAt b.selection.regions j)) hj
  refine ⟨(((b.rowBytes i).take j).zip ((List.range' i ((b.rowBytes i).take j).length).map fun j ↦
      markAt 16 halfCursor j (regionAt b.selection.regions j))).flatMap
        fun (byte, cmd) ↦ f byte cmd,
    rest.flatMap fun (byte, cmd) ↦ f byte cmd, ?_, ?_, fun brush hbrush ↦ ?_⟩
  · rw [hzip, List.flatMap_append, List.flatMap_cons]
  · rw [length_textOf_flatMap hwidth, List.length_zip, List.length_map, List.length_range', htake,
      Nat.min_self]
  · have hstart : brush.background =
        if i % 16 = 0 then .reset else enters b.selection.regions i := by
      rw [if_pos hi, hbrush]
    have hbg := background_after_row hleaves ((b.rowBytes i).take j) (by omega) hstart
    rw [hbg, htake]
    by_cases hzero : (i + j) % 16 = 0
    · exact .inl hzero
    · exact .inr (if_neg hzero)

private theorem look_behind {before ops behind : List TermOp} {n k : Nat} {look : Char × Color}
    (hn : (textOf before).length = n)
    (h : (((Brush.after ⟨.reset, .reset⟩ before).printed ops).flatMap fun p ↦
      p.1.toList.map (·, p.2))[k]? = some look) (line : List TermOp) :
    ((Brush.cells ⟨Color.reset, Color.reset⟩
      (before ++ (ops ++ behind) ++ line))[n + k]?).map Cell.look = some look := by
  rw [← map_look_cells] at h
  rw [List.append_assoc, List.append_assoc]
  exact getElem?_cells _ hn h

/-- The digits of a byte stand in fixed columns of its row, in the colours of the region that it
is in. -/
theorem look_hexColumn (halfCursor : Bool) (hs : b.SelectsWithin) (hi : i % 16 = 0)
    (hj : (b.rowBytes i)[j]? = some byte) (line : List TermOp) :
    let cells := Brush.cells ⟨Color.reset, Color.reset⟩ (b.row halfCursor i ++ line)
    let shown := highlight halfCursor (i + j) (regionAt b.selection.regions (i + j))
    (cells[1 + 3 * j]?).map Cell.look = some ((byte.toNat / 16).digitChar, shown.1) ∧
      (cells[2 + 3 * j]?).map Cell.look = some ((byte.toNat % 16).digitChar, shown.2) := by
  intro cells shown
  have hsorted := hs.valid.sorted
  obtain ⟨before, behind, hops, hwidth, hbg⟩ := exists_around halfCursor
    (f := drawHexByte) length_textOf_drawHexByte
    (fun brush byte i hbg ↦ by
      rw [(printed_drawHexByte brush byte _).2, (leaves_markAt hsorted hbg).1])
    hi hj
  set cmd := markAt 16 halfCursor (i + j) (regionAt b.selection.regions (i + j)) with hcmd
  have hcolors := first_second_markAt halfCursor hsorted (hbg ⟨.reset, .reset⟩ rfl)
  rw [← hcmd] at hcolors
  obtain ⟨hfirst, hsecond⟩ := Prod.mk.inj hcolors
  obtain ⟨hhigh, hlow⟩ := ByteProperties.toList_hexText_digits byte
  have hprinted : ((Brush.after ⟨.reset, .reset⟩ ([.print " "] ++ before)).printed
        (drawHexByte byte cmd)).flatMap (fun p ↦ p.1.toList.map (·, p.2)) =
      [((byte.toNat / 16).digitChar, shown.1), ((byte.toNat % 16).digitChar, shown.2),
        (' ', cmd.leaves (Brush.after ⟨.reset, .reset⟩ before).background)] := by
    rw [List.singleton_append, Brush.after_cons, Brush.apply_print,
      (printed_drawHexByte _ byte cmd).1]
    simp only [List.flatMap_cons, List.flatMap_nil, hhigh, hlow, List.map_cons, List.map_nil,
      List.cons_append, List.nil_append, hfirst, hsecond]
    rfl
  have hn : (textOf ([DisplayOp.print " "] ++ before)).length = 1 + 3 * j := by
    rw [List.singleton_append, textOf, List.length_append, hwidth,
      Nat.mul_comm]
    rfl
  obtain ⟨rest, hrow⟩ : ∃ rest, b.row halfCursor i =
      [.print " "] ++ before ++ (drawHexByte byte cmd ++ rest) := by
    refine ⟨?_, ?_⟩
    rotate_left
    · rw [CurrentBuffer.row, paddedRow, rowCommands, drawHexRow, hops]
      simp only [List.append_assoc]
      rfl
  simp only [cells, hrow]
  refine ⟨look_behind (k := 0) hn (by rw [hprinted]; rfl) line, ?_⟩
  rw [show 2 + 3 * j = 1 + 3 * j + 1 by omega]
  exact look_behind (k := 1) hn (by rw [hprinted]; rfl) line

/-- So does its character. -/
theorem look_asciiColumn (halfCursor : Bool) (hs : b.SelectsWithin) (hi : i % 16 = 0)
    (hj : (b.rowBytes i)[j]? = some byte) (line : List TermOp) :
    let cells := Brush.cells ⟨Color.reset, Color.reset⟩ (b.row halfCursor i ++ line)
    let shown := highlight halfCursor (i + j) (regionAt b.selection.regions (i + j))
    (cells[51 + j]?).map Cell.look = some (asciiChar byte, shown.1) := by
  intro cells shown
  have hsorted := hs.valid.sorted
  obtain ⟨before, behind, hops, hwidth, hbg⟩ := exists_around halfCursor
    (f := drawAsciiByte) length_textOf_drawAsciiByte
    (fun brush byte i hbg ↦ by rw [background_drawAsciiByte, (leaves_markAt hsorted hbg).2]) hi hj
  set cmd := markAt 16 halfCursor (i + j) (regionAt b.selection.regions (i + j)) with hcmd
  set marks := (List.range' i (b.rowBytes i).length).map fun j ↦
    markAt 16 halfCursor j (regionAt b.selection.regions j) with hmarks
  set left := leftColumn (b.rowBytes i) marks (b.rowEnd halfCursor i) with hleft
  have hreset := (background_columns halfCursor hs hi ⟨.reset, .reset⟩ rfl).1
  have hfirst : cmd.first (Brush.after (Brush.after ⟨.reset, .reset⟩ left) before).background =
      shown.1 :=
    congrArg Prod.fst (first_second_markAt halfCursor hsorted (hbg _ hreset))
  have hprinted : ((Brush.after ⟨.reset, .reset⟩ (left ++ before)).printed
        (drawAsciiByte byte cmd)).flatMap (fun p ↦ p.1.toList.map (·, p.2)) =
      [(asciiChar byte, shown.1)] := by
    rw [Brush.after_append, ← hfirst]
    simp only [drawAsciiByte, Brush.printed_append, printed_queueCommand, Brush.printed_print,
      Brush.printed_nil, List.nil_append, List.append_nil, List.flatMap_cons, List.flatMap_nil,
      toList_byteAsciiRepr, background_after_queueCommand, List.map_cons, List.map_nil]
    rfl
  have hn : (textOf (left ++ before)).length = 51 + j := by
    rw [textOf_append, List.length_append, hwidth, Nat.mul_one,
      (length_textOf_rowColumns b halfCursor i).1]
  obtain ⟨rest, hrow⟩ : ∃ rest, b.row halfCursor i =
      left ++ before ++ (drawAsciiByte byte cmd ++ rest) := by
    refine ⟨?_, ?_⟩
    rotate_left
    · rw [CurrentBuffer.row, paddedRow_eq, rightColumn, drawAsciiRow, hops]
      simp only [List.append_assoc]
      rfl
  simp only [cells, hrow]
  exact look_behind (k := 0) hn (by rw [hprinted]; rfl) line

end Columns

end Tofu
