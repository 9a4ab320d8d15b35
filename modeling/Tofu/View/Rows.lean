import Tofu.Buffer.ByteRope
import Tofu.View.ByteLines
import Tofu.View.Marks

/-!
# Rows and byte properties

Beside the rows of data the view prints five lines about the bytes at the main cursor, one
on each row (`src/src/hex_view/view.rs:798–894, 1244–1398`). When the data has fewer rows, rows
without data follow until all lines are printed; a row that is not on the screen is skipped, and
then no line is printed.
-/

namespace Tofu

open Rope

variable {X : XiRope UInt8}

/-- What drawing needs beside the view: how standard library strings are read, which characters
are printable, and a bound on the rounds of the loop for the remaining lines. -/
structure DrawEnv where
  reader : StringReader
  printable : Char → Bool
  rounds : Nat

/-- Every character is printable, and there is a round for each line. -/
def DrawEnv.reference : DrawEnv := { reader := .reference, printable := fun _ ↦ true, rounds := 5 }

instance : Inhabited DrawEnv := ⟨.reference⟩

/-- What was queued, and the lines about the current bytes. -/
structure Printing where
  ops : List TermOp
  byteProperties : BytePropertiesFormatter

/-! ## Rows -/

/-- `current_buffer.rs:63–67`. -/
inductive OverflowSelectionStyle where
  | cursor | tail | cursorTail
  deriving DecidableEq, Repr

/-- `current_buffer.rs:317–329`. -/
def CurrentBuffer.overflowSelStyle (b : CurrentBuffer X) :
    Option (Option OverflowSelectionStyle) := do
  let lastSel ← b.selection.regions.getLast?
  let len := b.data.length
  some (
    if lastSel.caret = len ∧ lastSel.tail = len then some .cursorTail
    else if lastSel.caret = len then some .cursor
    else if lastSel.tail = len then some .tail
    else none)

/-- `view.rs:957–962`. -/
def emptyCaretStyle : PrioritizedStyle :=
  { style := { foregroundColor := none, backgroundColor := some .green }
    priority := .cursor }

/-- `view.rs:740–749`. -/
def drawAsciiRow (styledBytes : List (UInt8 × StylingCommand)) : List TermOp :=
  styledBytes.flatMap fun (byte, styleCmd) ↦ drawAsciiByte byte styleCmd

/-- `view.rs:751–754`. -/
def drawSeparator : List TermOp := [.setForegroundColor .white, .print "│ "]

/-- A row before the line about the current bytes, `view.rs:838–889`. -/
def rowCommands (bytes : List UInt8) (marks : List StylingCommand)
    (endStyle : Option StylingCommand) (hexPadding asciiPadding : String) : List TermOp :=
  let hexEnd := (endStyle.map fun styleCmd ↦
    drawText " " styleCmd.withMidToEnd ++ drawText " " styleCmd.takeEndOnly).getD []
  let asciiEnd := (endStyle.map fun styleCmd ↦ drawText " " styleCmd.takeEndOnly).getD []
  [.print " "] ++ drawHexRow (bytes.zip marks) ++ hexEnd ++ [.print hexPadding] ++
    drawSeparator ++ drawAsciiRow (bytes.zip marks) ++ asciiEnd ++ [.print asciiPadding] ++
    drawSeparator

/-- A row from its first column on, and the line about the current bytes. -/
def drawnRow (row : Nat) (commands line : List TermOp) : List TermOp :=
  .moveTo 0 row :: (commands ++ line) ++ [.clearUntilNewLine]

namespace HexView

variable (G : DrawEnv)

/-- `view.rs:1197–1212`. -/
def overflowCursorStyle (v : HexView X) (b : CurrentBuffer X) :
    Option (Option StylingCommand) := do
  let style ← b.overflowSelStyle
  some (style.map fun style ↦
    (match style with
      | .cursorTail | .cursor =>
        if v.mode.hasHalfCursor then ({} : StylingCommand).withMidStyle emptyCaretStyle
        else ({} : StylingCommand).withStartStyle emptyCaretStyle
      | .tail => {}).withEndStyle defaultStyle)

/-- `view.rs:798–816`. -/
def offsetToRow (v : HexView X) (offset : Nat) : Option Nat :=
  if offset < v.startOffset then none
  else
    let row := (offset - v.startOffset) / v.bytesPerLine
    if row ≥ v.size.2 then none else some row

/-- The blanks behind the digits of a row, `view.rs:851–866`. -/
def hexPadding (v : HexView X) (bytes : List UInt8) (endStyle : Option StylingCommand) : Nat :=
  let paddingLength :=
    if bytes = [] then usizeMul v.bytesPerLine 3
    else usizeMul ((v.bytesPerLine - bytes.length) % v.bytesPerLine) 3
  if endStyle.isSome then usizeSub paddingLength 2 else paddingLength

/-- The blanks behind its characters, `view.rs:874–886`. -/
def asciiPadding (v : HexView X) (bytes : List UInt8) (endStyle : Option StylingCommand) : Nat :=
  let paddingLength :=
    usizeAdd (if bytes = [] then v.bytesPerLine
      else (v.bytesPerLine - bytes.length) % v.bytesPerLine) 1
  if endStyle.isSome then usizeSub paddingLength 1 else paddingLength

/-- `view.rs:820–894`. A row that is not on the screen is skipped. -/
def drawRow (v : HexView X) (bytes : List UInt8) (offset : Nat) (marks : List StylingCommand)
    (endStyle : Option StylingCommand) (p : Printing) : Option Printing :=
  match v.offsetToRow offset with
  | none => some p
  | some row => do
    let hexPadding ← makePadding (v.hexPadding bytes endStyle)
    let asciiPadding ← makePadding (v.asciiPadding bytes endStyle)
    let line ← p.byteProperties.lineOps G.reader G.printable
    some
      { ops := p.ops ++
          drawnRow row (rowCommands bytes marks endStyle hexPadding asciiPadding) line
        byteProperties := p.byteProperties.drawLine }

/-! ## The rows of a drawing -/

/-- Whether the row at an offset is drawn: all rows are, or those in a set, `view.rs:1283`. -/
def drawsRow (v : HexView X) (invalidatedRows : Option (List Nat)) (i : Nat) : Option Bool :=
  match invalidatedRows with
  | none => some true
  | some rows => (v.offsetToRow i).map fun row ↦ decide (row ∈ rows)

/-- The style of the end of a row, `view.rs:1294–1298`. -/
def rowEndStyle (v : HexView X) (b : CurrentBuffer X) (i : Nat) :
    Option (Option StylingCommand) :=
  if usizeAdd i v.bytesPerLine > b.data.length then v.overflowCursorStyle b else some none

/-- A row of data, `view.rs:1283–1300` and `1362–1375`. -/
def dataRow (v : HexView X) (b : CurrentBuffer X) (invalidatedRows : Option (List Nat))
    (visibleBytesCow : List UInt8) (marks : List StylingCommand) (p : Printing) (i : Nat) :
    Option Printing := do
  if ← v.drawsRow invalidatedRows i then
    let normalizedI := i - v.startOffset
    let normalizedEnd := min visibleBytesCow.length (usizeAdd normalizedI v.bytesPerLine)
    let bytes ← checkedSlice visibleBytesCow normalizedI normalizedEnd
    let marks ← checkedSlice marks normalizedI normalizedEnd
    let endStyle ← v.rowEndStyle b i
    v.drawRow G bytes i marks endStyle p
  else some p

/-- The number of rows in a range, `step_by(bytes_per_line)`. -/
def rowCount (v : HexView X) (visible : Interval) : Nat :=
  (visible.stop - visible.start + v.bytesPerLine - 1) / v.bytesPerLine

/-- The first row without data, `view.rs:1303–1308`. -/
def firstEmptyRow (v : HexView X) (visible : Interval) : Nat :=
  let a := visible.stop / v.bytesPerLine
  usizeMul (if visible.stop % v.bytesPerLine = 0 then a else a + 1) v.bytesPerLine

/-- `view.rs:1249–1301` and `1324–1376`: the rows of data, with lines about the bytes given. All
rows are drawn, or those in a set. -/
def drawData (v : HexView X) (invalidatedRows : Option (List Nat)) (currentBytes : List UInt8) :
    Option Printing := do
  let b ← v.current
  let visible := v.visibleBytes b.data.length
  let visibleBytesCow ← sliceToCow b.data visible
  let marks ← v.markCommands visible
  let byteProperties ← BytePropertiesFormatter.new currentBytes
  let ops := if invalidatedRows.isNone then [.moveTo 0 0, .clearAll] else []
  if v.bytesPerLine = 0 then none
  else
    ((List.range (v.rowCount visible)).map fun k ↦ visible.start + k * v.bytesPerLine).foldlM
      (v.dataRow G b invalidatedRows visibleBytesCow marks) { ops, byteProperties }

/-- At most so many rounds of the loop for the remaining lines, `view.rs:1309–1312` and
`1384–1387`. -/
def drawRemaining (v : HexView X) : Nat → Printing → Nat → Option Printing
  | 0, p, _ => some p
  | rounds + 1, p, offset =>
    if p.byteProperties.areAllPrinted then some p
    else do
      let p ← v.drawRow G [] offset [] none p
      drawRemaining v rounds p (usizeAdd offset v.bytesPerLine)

/-! ## One row -/

section Row

variable {G : DrawEnv} {v : HexView X} {bytes : List UInt8} {offset : Nat}
  {marks : List StylingCommand} {endStyle : Option StylingCommand} {p p' : Printing}

/-- A line is printed on each row that is on the screen. -/
theorem byteProperties_drawRow (h : v.drawRow G bytes offset marks endStyle p = some p') :
    p'.byteProperties =
      if (v.offsetToRow offset).isSome then p.byteProperties.drawLine else p.byteProperties := by
  unfold drawRow at h
  split at h
  · next hrow =>
    rw [hrow, ← Option.some.inj h]
    rfl
  · next row hrow =>
    obtain ⟨hexPadding, -, h⟩ := Option.bind_eq_some_iff.mp h
    obtain ⟨asciiPadding, -, h⟩ := Option.bind_eq_some_iff.mp h
    obtain ⟨line, -, h⟩ := Option.bind_eq_some_iff.mp h
    rw [hrow, ← Option.some.inj h]
    rfl

/-- The lines are about the same bytes after each row. -/
theorem data_drawRow (h : v.drawRow G bytes offset marks endStyle p = some p') :
    p'.byteProperties.data = p.byteProperties.data := by
  rw [byteProperties_drawRow h]
  split <;> rfl

private theorem isSome_makePadding {len : Nat} : (makePadding len).isSome ↔ len ≤ 64 := by
  unfold makePadding
  split <;> simp [*]

/-- Printing a row fails only on too long a padding. -/
theorem isSome_drawRow (hfour : p.byteProperties.data.length ≤ 4) :
    (v.drawRow G bytes offset marks endStyle p).isSome ↔
      ((v.offsetToRow offset).isSome →
        v.hexPadding bytes endStyle ≤ 64 ∧ v.asciiPadding bytes endStyle ≤ 64) := by
  obtain ⟨line, hline⟩ := BytePropertiesFormatter.exists_lineOps G.reader G.printable hfour
  rw [← isSome_makePadding, ← isSome_makePadding]
  simp only [drawRow, hline]
  cases v.offsetToRow offset with
  | none => simp
  | some row =>
    cases makePadding (v.hexPadding bytes endStyle) <;>
      cases makePadding (v.asciiPadding bytes endStyle) <;> simp

/-- A row without data has a blank for each digit and gap of a full one. -/
theorem padding_nil (hlt : v.bytesPerLine < 2 ^ 64) :
    v.hexPadding [] none ≤ 64 ∧ v.asciiPadding [] none ≤ 64 ↔ v.bytesPerLine ≤ 21 := by
  simp only [hexPadding, asciiPadding, if_true, Option.isSome_none, Bool.false_eq_true, if_false]
  constructor
  · rintro ⟨hhex, hascii⟩
    rcases Nat.lt_or_ge (v.bytesPerLine + 1) (2 ^ 64) with hone | hone
    · rw [usizeAdd_of_lt hone] at hascii
      rw [usizeMul_of_lt (by omega)] at hhex
      omega
    · obtain hmax : v.bytesPerLine = 2 ^ 64 - 1 := by omega
      rw [hmax] at hhex
      exact absurd hhex (by decide)
  · intro h21
    rw [usizeMul_of_lt (by omega), usizeAdd_of_lt (by omega)]
    omega

/-- The paddings of a row of data fit, if a style for its end leaves it room. -/
theorem padding_data (hb : 0 < v.bytesPerLine) (h21 : v.bytesPerLine ≤ 21)
    (hend : endStyle.isSome → bytes.length < v.bytesPerLine) :
    v.hexPadding bytes endStyle ≤ 64 ∧ v.asciiPadding bytes endStyle ≤ 64 := by
  have hmod : (v.bytesPerLine - bytes.length) % v.bytesPerLine < v.bytesPerLine := Nat.mod_lt _ hb
  have hroom : endStyle.isSome → bytes ≠ [] →
      0 < (v.bytesPerLine - bytes.length) % v.bytesPerLine := by
    intro hsome hne
    have hpos := List.length_pos_iff.mpr hne
    have hlt := hend hsome
    rw [Nat.mod_eq_of_lt (by omega)]
    omega
  unfold hexPadding asciiPadding
  generalize (v.bytesPerLine - bytes.length) % v.bytesPerLine = blanks at hmod hroom ⊢
  have hsub : ∀ {n k : Nat}, k ≤ n → n ≤ 64 → usizeSub n k ≤ 64 := by
    intro n k hk hn
    unfold usizeSub
    omega
  by_cases hnil : bytes = []
  · simp only [hnil, if_true]
    rw [usizeMul_of_lt (by omega), usizeAdd_of_lt (by omega)]
    split
    · exact ⟨hsub (by omega) (by omega), hsub (by omega) (by omega)⟩
    · omega
  · simp only [hnil, if_false]
    rw [usizeMul_of_lt (by omega), usizeAdd_of_lt (by omega)]
    split
    · next hsome =>
      have hpos := hroom hsome hnil
      exact ⟨hsub (by omega) (by omega), hsub (by omega) (by omega)⟩
    · omega

private theorem offsetToRow_mul (hb : 0 < v.bytesPerLine) {s : Nat}
    (hs : v.startOffset = v.bytesPerLine * s) (q : Nat) :
    v.offsetToRow (v.bytesPerLine * q) =
      if s ≤ q ∧ q < s + v.size.2 then some (q - s) else none := by
  have hlt : v.bytesPerLine * q < v.bytesPerLine * s ↔ q < s := Nat.mul_lt_mul_left hb
  rw [offsetToRow, hs, ← Nat.mul_sub, Nat.mul_div_cancel_left _ hb]
  simp only [hlt]
  split
  · rw [if_neg (by omega)]
  · split
    · rw [if_neg (by omega)]
    · rw [if_pos (by omega)]

end Row

/-! ## The remaining lines -/

section Remaining

variable {G : DrawEnv} {v : HexView X} (hb : 0 < v.bytesPerLine) (hlt : v.bytesPerLine < 2 ^ 64)
  {s : Nat}
  (hs : v.startOffset = v.bytesPerLine * s)

/-- All lines are printed after five. -/
theorem areAllPrinted_iff (f : BytePropertiesFormatter) : f.areAllPrinted ↔ 5 ≤ f.line := by
  rw [BytePropertiesFormatter.areAllPrinted, decide_eq_true_eq, BytePropertiesFormatter.height]
  omega

private theorem drawRemaining_of_areAllPrinted {p : Printing} (h : p.byteProperties.areAllPrinted)
    (rounds offset : Nat) : v.drawRemaining G rounds p offset = some p := by
  cases rounds with
  | zero => rfl
  | succ rounds => rw [drawRemaining, if_pos h]

/-- The loop does not panic when lines are not too long for the padding of an empty row. -/
theorem isSome_drawRemaining (h21 : v.bytesPerLine ≤ 21) (rounds : Nat) {p : Printing}
    (hfour : p.byteProperties.data.length ≤ 4) (offset : Nat) :
    (v.drawRemaining G rounds p offset).isSome := by
  induction rounds generalizing p offset with
  | zero => rfl
  | succ rounds ih =>
    rw [drawRemaining]
    split
    · rfl
    · have hrow : (v.drawRow G [] offset [] none p).isSome :=
        (isSome_drawRow hfour).mpr fun _ ↦ (padding_nil (by omega)).mpr h21
      obtain ⟨p', hp'⟩ := Option.isSome_iff_exists.mp hrow
      rw [hp', Option.bind_eq_bind, Option.bind_some]
      exact ih (by rw [data_drawRow hp']; exact hfour) _

include hb hlt hs

/-- A row without data prints a line if it is on the screen, and lines are not too long for its
padding. -/
theorem drawRow_empty (q : Nat) {p : Printing}
    (hfour : p.byteProperties.data.length ≤ 4) :
    (¬ (s ≤ q ∧ q < s + v.size.2) ∧ v.drawRow G [] (v.bytesPerLine * q) [] none p = some p) ∨
    (s ≤ q ∧ q < s + v.size.2 ∧ v.bytesPerLine ≤ 21 ∧
      ∃ p', v.drawRow G [] (v.bytesPerLine * q) [] none p = some p' ∧
        p'.byteProperties = p.byteProperties.drawLine) ∨
    (s ≤ q ∧ 21 < v.bytesPerLine ∧ v.drawRow G [] (v.bytesPerLine * q) [] none p = none) := by
  have hrow := offsetToRow_mul hb hs q
  by_cases hon : s ≤ q ∧ q < s + v.size.2
  · rw [if_pos hon] at hrow
    have hsome : (v.drawRow G [] (v.bytesPerLine * q) [] none p).isSome ↔ v.bytesPerLine ≤ 21 := by
      rw [isSome_drawRow hfour, hrow, padding_nil hlt]
      simp
    by_cases h21 : v.bytesPerLine ≤ 21
    · obtain ⟨p', hp'⟩ := Option.isSome_iff_exists.mp (hsome.mpr h21)
      refine .inr (.inl ⟨hon.1, hon.2, h21, p', hp', ?_⟩)
      rw [byteProperties_drawRow hp', hrow]
      rfl
    · exact .inr (.inr ⟨hon.1, Nat.not_le.mp h21, by simpa [h21] using hsome⟩)
  · rw [if_neg hon] at hrow
    exact .inl ⟨hon, by rw [drawRow, hrow]⟩

/-- From row number `q` of the address space on, the loop ends when enough rows are left on the
screen and it gets to them. -/
theorem exists_drawRemaining_iff {rounds q : Nat} {p : Printing}
    (hfit : v.bytesPerLine * (q + rounds) < 2 ^ 64) (hfour : p.byteProperties.data.length ≤ 4)
    (hline : p.byteProperties.line < 5) :
    (∃ p', v.drawRemaining G rounds p (v.bytesPerLine * q) = some p' ∧
        p'.byteProperties.areAllPrinted) ↔
      v.bytesPerLine ≤ 21 ∧ 5 + max q s ≤ p.byteProperties.line + (s + v.size.2) ∧
        max q s + (5 - p.byteProperties.line) ≤ q + rounds := by
  have hgo : ∀ {p : Printing}, p.byteProperties.line < 5 → ¬ p.byteProperties.areAllPrinted := by
    intro p hline
    rw [areAllPrinted_iff]
    omega
  induction rounds generalizing p q with
  | zero =>
    refine iff_of_false ?_ (by omega)
    rintro ⟨p', hp', hall⟩
    rw [← Option.some.inj hp'] at hall
    exact hgo hline hall
  | succ rounds ih =>
    have hnext : usizeAdd (v.bytesPerLine * q) v.bytesPerLine = v.bytesPerLine * (q + 1) := by
      have hle : v.bytesPerLine * (q + 1) ≤ v.bytesPerLine * (q + (rounds + 1)) :=
        Nat.mul_le_mul_left _ (by omega)
      rw [Nat.mul_succ] at hle ⊢
      exact usizeAdd_of_lt (by omega)
    have hfit' : v.bytesPerLine * (q + 1 + rounds) < 2 ^ 64 := by
      rw [Nat.add_assoc, Nat.add_comm 1 rounds]
      exact hfit
    rw [drawRemaining, if_neg (hgo hline), hnext, Option.bind_eq_bind]
    rcases drawRow_empty hb hlt hs q hfour with ⟨hoff, hp⟩ | ⟨hle, hon, h21, p', hp', hnew⟩ |
      ⟨hle, h21, hp⟩
    · rw [hp, Option.bind_some]
      refine (ih hfit' hfour hline).trans ?_
      omega
    · have hline' : p'.byteProperties.line = p.byteProperties.line + 1 := by
        rw [hnew]
        rfl
      rw [hp', Option.bind_some]
      by_cases hlast : p.byteProperties.line = 4
      · have hall : p'.byteProperties.areAllPrinted := by
          rw [areAllPrinted_iff]
          omega
        exact iff_of_true ⟨p', drawRemaining_of_areAllPrinted hall _ _, hall⟩ (by omega)
      · refine (ih hfit' (by rw [hnew]; exact hfour) (by omega)).trans ?_
        omega
    · rw [hp, Option.bind_none]
      refine iff_of_false ?_ (by omega)
      rintro ⟨p', hp', -⟩
      cases hp'

end Remaining

/-! ## Lines printed on rows of data -/

/-- The row is among those to draw. -/
def Drawn (invalidatedRows : Option (List Nat)) (row : Nat) : Bool :=
  match invalidatedRows with
  | none => true
  | some rows => decide (row ∈ rows)

section Data

variable {G : DrawEnv} {v : HexView X} {b : CurrentBuffer X}
  {invalidatedRows : Option (List Nat)} {cow : List UInt8} {marks : List StylingCommand}
  {p p' : Printing}

/-- The rows on the screen are counted from its first offset on. -/
theorem offsetToRow_add (hb : 0 < v.bytesPerLine) {k : Nat} (hk : k < v.size.2) :
    v.offsetToRow (v.startOffset + k * v.bytesPerLine) = some k := by
  rw [offsetToRow, if_neg (by omega), Nat.add_sub_cancel_left, Nat.mul_div_cancel _ hb]
  exact if_neg (Nat.not_le.mpr hk)

/-- They are drawn when all are, or when they are asked for. -/
theorem drawsRow_add (hb : 0 < v.bytesPerLine) {k : Nat} (hk : k < v.size.2)
    (invalidatedRows : Option (List Nat)) :
    v.drawsRow invalidatedRows (v.startOffset + k * v.bytesPerLine) =
      some (Drawn invalidatedRows k) := by
  cases invalidatedRows with
  | none => rfl
  | some rows =>
    rw [drawsRow, offsetToRow_add hb hk]
    rfl

private theorem byteProperties_dataRow (hb : 0 < v.bytesPerLine) {k : Nat} (hk : k < v.size.2)
    (h : v.dataRow G b invalidatedRows cow marks p (v.startOffset + k * v.bytesPerLine) = some p') :
    p'.byteProperties =
      if Drawn invalidatedRows k then p.byteProperties.drawLine else p.byteProperties := by
  have hrow := offsetToRow_add hb hk
  rw [dataRow, drawsRow_add hb hk, Option.bind_eq_bind, Option.bind_some] at h
  split at h
  · next hyes =>
    obtain ⟨bytes, -, h⟩ := Option.bind_eq_some_iff.mp h
    obtain ⟨marks', -, h⟩ := Option.bind_eq_some_iff.mp h
    obtain ⟨endStyle, -, h⟩ := Option.bind_eq_some_iff.mp h
    rw [byteProperties_drawRow h, hrow, if_pos hyes]
    rfl
  · next hno =>
    rw [if_neg hno, ← Option.some.inj h]

/-- Each of the rows drawn prints a line. -/
theorem byteProperties_foldlM_dataRow (hb : 0 < v.bytesPerLine) {rows : List Nat}
    (hrows : ∀ k ∈ rows, k < v.size.2)
    (h : (rows.map fun k ↦ v.startOffset + k * v.bytesPerLine).foldlM
      (v.dataRow G b invalidatedRows cow marks) p = some p') :
    p'.byteProperties.data = p.byteProperties.data ∧
      p'.byteProperties.line =
        p.byteProperties.line + rows.countP (Drawn invalidatedRows) := by
  induction rows generalizing p with
  | nil =>
    rw [← Option.some.inj h]
    exact ⟨rfl, rfl⟩
  | cons k rows ih =>
    obtain ⟨hk, hrows⟩ := List.forall_mem_cons.mp hrows
    rw [List.map_cons, List.foldlM_cons] at h
    obtain ⟨p₁, hp₁, h⟩ := Option.bind_eq_some_iff.mp h
    obtain ⟨hdata, hline⟩ := ih hrows h
    rw [hdata, hline, byteProperties_dataRow hb hk hp₁, List.countP_cons]
    split
    · exact ⟨rfl, by simp only [BytePropertiesFormatter.drawLine]; omega⟩
    · exact ⟨rfl, rfl⟩

private theorem rowCount_lt (hb : 0 < v.bytesPerLine) (hh : 2 ≤ v.size.2) (dataLen : Nat) :
    v.rowCount (v.visibleBytes dataLen) < v.size.2 := by
  have hstop : (v.visibleBytes dataLen).stop ≤ v.startOffset + (v.size.2 - 1) * v.bytesPerLine :=
    (Nat.min_le_right _ _).trans (Nat.mod_le _ _)
  have hlt : (v.visibleBytes dataLen).stop - v.startOffset + v.bytesPerLine - 1 <
      v.size.2 * v.bytesPerLine := by
    have hsplit : v.size.2 * v.bytesPerLine =
        (v.size.2 - 1) * v.bytesPerLine + v.bytesPerLine := by
      rw [← Nat.succ_mul]
      congr 1
      omega
    omega
  exact (Nat.div_lt_iff_lt_mul hb).mpr hlt

/-- Drawing the rows of data prints a line on each of them. -/
theorem exists_of_drawData {currentBytes : List UInt8} (hcur : v.current = some b)
    (hh : 2 ≤ v.size.2) (h : v.drawData G invalidatedRows currentBytes = some p) :
    0 < v.bytesPerLine ∧ p.byteProperties.data.length ≤ 4 ∧ p.byteProperties.line =
      (List.range (v.rowCount (v.visibleBytes b.data.length))).countP (Drawn invalidatedRows) := by
  rw [drawData, hcur, Option.bind_eq_bind, Option.bind_some] at h
  obtain ⟨cow, -, h⟩ := Option.bind_eq_some_iff.mp h
  obtain ⟨marks, -, h⟩ := Option.bind_eq_some_iff.mp h
  obtain ⟨f, hf, h⟩ := Option.bind_eq_some_iff.mp h
  obtain ⟨hfour, hzero⟩ : f.data.length ≤ 4 ∧ f.line = 0 := by
    unfold BytePropertiesFormatter.new at hf
    split at hf
    · next hfour =>
      rw [← Option.some.inj hf]
      exact ⟨hfour, rfl⟩
    · cases hf
  dsimp only at h
  split at h
  · cases h
  · next hne =>
    have hb := Nat.pos_of_ne_zero hne
    have hcount := rowCount_lt hb hh b.data.length
    obtain ⟨hdata, hline⟩ := byteProperties_foldlM_dataRow hb
      (fun k hk ↦ (List.mem_range.mp hk).trans hcount) h
    refine ⟨hb, by rw [hdata]; exact hfour, ?_⟩
    rw [hline]
    simp [hzero]

end Data

/-! ## Drawing data never fails -/

section Draws

variable {G : DrawEnv} {v : HexView X} {b : CurrentBuffer X} (hb : 2 ≤ v.bytesPerLine)
  (h21 : v.bytesPerLine ≤ 21) (hh : 2 ≤ v.size.2) (hlen : b.data.length < 2 ^ 63)
  (hv : b.selection.Valid)
include hb h21 hh hlen hv

omit hb h21 hh hlen in
private theorem exists_rowEndStyle {i : Nat} (hi : i + v.bytesPerLine < 2 ^ 64) :
    ∃ endStyle, v.rowEndStyle b i = some endStyle ∧
      (endStyle.isSome → b.data.length < i + v.bytesPerLine) := by
  have hlast := List.getLast?_eq_some_getLast hv.nonempty
  rw [rowEndStyle, usizeAdd_of_lt hi]
  split
  · next hgt =>
    rw [overflowCursorStyle, CurrentBuffer.overflowSelStyle, hlast]
    exact ⟨_, rfl, fun _ ↦ hgt⟩
  · exact ⟨none, rfl, fun h ↦ Bool.noConfusion h⟩

private theorem exists_dataRow {cow : List UInt8} {marks : List StylingCommand} {k : Nat}
    (hcow : cow = (b.data.drop v.startOffset).take
      ((v.visibleBytes b.data.length).stop - v.startOffset))
    (hmarks : marks.length = (v.visibleBytes b.data.length).stop - v.startOffset)
    (hk : k < v.rowCount (v.visibleBytes b.data.length)) (invalidatedRows : Option (List Nat))
    {p : Printing} (hfour : p.byteProperties.data.length ≤ 4) :
    ∃ p', v.dataRow G b invalidatedRows cow marks p (v.startOffset + k * v.bytesPerLine) =
      some p' := by
  have hrow : k < v.size.2 := hk.trans (rowCount_lt (by omega) hh _)
  have hstop : (v.visibleBytes b.data.length).stop ≤ b.data.length + 1 := Nat.min_le_left _ _
  have hvisible : v.startOffset + k * v.bytesPerLine < (v.visibleBytes b.data.length).stop := by
    have hle := (Nat.le_div_iff_mul_le (by omega)).mp (Nat.succ_le_of_lt hk)
    rw [Nat.succ_mul, show (v.visibleBytes b.data.length).start = v.startOffset from rfl] at hle
    omega
  generalize (v.visibleBytes b.data.length).stop = stop at hcow hmarks hstop hvisible
  have hcowlen : cow.length = min (stop - v.startOffset) (b.data.length - v.startOffset) := by
    rw [hcow, List.length_take, List.length_drop]
  rw [dataRow, drawsRow_add (by omega) hrow, Option.bind_eq_bind, Option.bind_some]
  split
  · obtain ⟨endStyle, hend, hbehind⟩ := exists_rowEndStyle hv
      (show v.startOffset + k * v.bytesPerLine + v.bytesPerLine < 2 ^ 64 by omega)
    have hni : v.startOffset + k * v.bytesPerLine - v.startOffset = k * v.bytesPerLine := by omega
    have hne : min cow.length (usizeAdd (k * v.bytesPerLine) v.bytesPerLine) =
        min cow.length (k * v.bytesPerLine + v.bytesPerLine) := by
      rw [usizeAdd_of_lt (by omega)]
    simp only [hni, hne, checkedSlice, Option.bind_eq_bind]
    rw [if_pos ⟨by omega, by omega⟩, Option.bind_some, if_pos ⟨by omega, by omega⟩,
      Option.bind_some, hend, Option.bind_some]
    refine Option.isSome_iff_exists.mp ((isSome_drawRow hfour).mpr fun _ ↦ ?_)
    refine padding_data (by omega) h21 fun hsome ↦ ?_
    have := hbehind hsome
    rw [List.length_drop, List.length_take]
    omega
  · exact ⟨p, rfl⟩

private theorem exists_foldlM_dataRow {cow : List UInt8} {marks : List StylingCommand}
    (hcow : cow = (b.data.drop v.startOffset).take
      ((v.visibleBytes b.data.length).stop - v.startOffset))
    (hmarks : marks.length = (v.visibleBytes b.data.length).stop - v.startOffset)
    {rows : List Nat} (hrows : ∀ k ∈ rows, k < v.rowCount (v.visibleBytes b.data.length))
    (invalidatedRows : Option (List Nat)) {p : Printing}
    (hfour : p.byteProperties.data.length ≤ 4) :
    ∃ p', (rows.map fun k ↦ v.startOffset + k * v.bytesPerLine).foldlM
      (v.dataRow G b invalidatedRows cow marks) p = some p' := by
  induction rows generalizing p with
  | nil => exact ⟨p, rfl⟩
  | cons k rows ih =>
    obtain ⟨hk, hrows⟩ := List.forall_mem_cons.mp hrows
    obtain ⟨p₁, hp₁⟩ :=
      exists_dataRow (G := G) hb h21 hh hlen hv hcow hmarks hk invalidatedRows hfour
    have hdata : p₁.byteProperties.data = p.byteProperties.data := by
      rw [byteProperties_dataRow (by omega) (hk.trans (rowCount_lt (by omega) hh _)) hp₁]
      split <;> rfl
    obtain ⟨p', hp'⟩ := ih hrows (by rw [hdata]; exact hfour)
    refine ⟨p', ?_⟩
    rw [List.map_cons, List.foldlM_cons, hp₁]
    exact hp'

/-- With a valid selection within the data, the rows of data are drawn. -/
theorem exists_drawData (hcur : v.current = some b)
    (hin : ∀ r ∈ b.selection.regions, r.InBounds b.data.length)
    (hfit : v.startOffset + (v.size.2 - 1) * v.bytesPerLine < 2 ^ 64) {currentBytes : List UInt8}
    (hfour : currentBytes.length ≤ 4) (invalidatedRows : Option (List Nat)) :
    ∃ p, v.drawData G invalidatedRows currentBytes = some p := by
  have hstop : (v.visibleBytes b.data.length).stop =
      min (b.data.length + 1) (v.startOffset + (v.size.2 - 1) * v.bytesPerLine) := by
    rw [visibleBytes, usizeAdd_of_lt hfit]
  have hcow : sliceToCow b.data (v.visibleBytes b.data.length) = some
      ((b.data.drop v.startOffset).take
        ((v.visibleBytes b.data.length).stop - v.startOffset)) := by
    rw [sliceToCow, if_neg (by rw [hstop]; show ¬ (v.startOffset < _ ∧ _ < v.startOffset); omega)]
    rfl
  have hrange : ¬ ∃ r ∈ b.selection.regions, (v.visibleBytes b.data.length).stop < r.min ∧
      r.max < (v.visibleBytes b.data.length).start := by
    rintro ⟨r, hr, hmin, hmax⟩
    have hle := r.min_le_max
    have hdata := (SelRegion.inBounds_iff_max_le _ r).mp (hin r hr)
    change r.max < v.startOffset at hmax
    omega
  obtain ⟨marks, hmarks, hmlen, -⟩ := exists_markCommands _ hcur hv hb hrange
  obtain ⟨p, hp⟩ := exists_foldlM_dataRow (G := G) hb h21 hh hlen hv rfl hmlen
    (fun k hk ↦ List.mem_range.mp hk) invalidatedRows
    (p := ⟨if invalidatedRows.isNone then [.moveTo 0 0, .clearAll] else [], ⟨currentBytes, 0⟩⟩)
    hfour
  refine ⟨p, ?_⟩
  rw [drawData, hcur, Option.bind_eq_bind, Option.bind_some]
  simp only [hcow, hmarks, Option.bind_eq_bind, Option.bind_some, BytePropertiesFormatter.new,
    if_pos hfour, if_neg (show v.bytesPerLine ≠ 0 by omega)]
  exact hp

end Draws

/-! ## All lines -/

section All

variable {G : DrawEnv} {v : HexView X} {b : CurrentBuffer X}

private theorem ceil_div {d : Nat} (hd : 0 < d) (n : Nat) :
    (if n % d = 0 then n / d else n / d + 1) = (n + d - 1) / d := by
  have hr := Nat.mod_lt n hd
  have hsplit : n + d - 1 = d * (n / d) + (n % d + d - 1) := by
    have := Nat.div_add_mod n d
    omega
  rw [hsplit, Nat.mul_add_div hd]
  split
  · next hzero =>
    have hnone : (n % d + d - 1) / d = 0 := Nat.div_eq_of_lt (by omega)
    rw [hnone, Nat.add_zero]
  · next hpos =>
    have hone : (n % d + d - 1) / d = 1 := Nat.div_eq_of_lt_le (by omega) (by omega)
    rw [hone]

private theorem rowCount_eq (hb : 0 < v.bytesPerLine) {s : Nat} {visible : Interval}
    (hs : visible.start = v.bytesPerLine * s) :
    v.rowCount visible = (visible.stop + v.bytesPerLine - 1) / v.bytesPerLine - s := by
  rw [rowCount, hs]
  rcases Nat.lt_or_ge visible.stop (v.bytesPerLine * s) with hlt | hge
  · have hle : (visible.stop + v.bytesPerLine - 1) / v.bytesPerLine < s + 1 := by
      rw [Nat.div_lt_iff_lt_mul hb, Nat.succ_mul, Nat.mul_comm]
      omega
    rw [Nat.div_eq_of_lt (by omega)]
    omega
  · rw [← Nat.sub_mul_div]
    congr 1
    omega

/-- The rows without data follow those of data; when there are none, they start no later than
the screen. -/
theorem firstEmptyRow_eq (hb : 0 < v.bytesPerLine) (hlt : v.bytesPerLine < 2 ^ 64)
    {s : Nat} (visible : Interval) (hs : visible.start = v.bytesPerLine * s)
    (hstop : visible.stop ≤ 2 ^ 63) :
    ∃ q, v.firstEmptyRow visible = v.bytesPerLine * q ∧ max q s = s + v.rowCount visible := by
  refine ⟨(visible.stop + v.bytesPerLine - 1) / v.bytesPerLine, ?_, ?_⟩
  · rw [firstEmptyRow, ceil_div hb, usizeMul_of_lt, Nat.mul_comm]
    rcases Nat.lt_or_ge (2 ^ 63) v.bytesPerLine with hlong | hshort
    · have hone : (visible.stop + v.bytesPerLine - 1) / v.bytesPerLine < 2 := by
        rw [Nat.div_lt_iff_lt_mul hb]
        omega
      have hle := Nat.mul_le_mul_right v.bytesPerLine (Nat.le_of_lt_succ hone)
      omega
    · have hle := Nat.div_mul_le_self (visible.stop + v.bytesPerLine - 1) v.bytesPerLine
      omega
  · rw [rowCount_eq hb hs]
    omega

private theorem countP_drawn {invalidatedRows : Option (List Nat)}
    (hrows : ∀ row < 5, Drawn invalidatedRows row) (count : Nat) :
    (count < 5 → (List.range count).countP (Drawn invalidatedRows) = count) ∧
      (5 ≤ count → 5 ≤ (List.range count).countP (Drawn invalidatedRows)) := by
  have hall : ∀ n ≤ 5, (List.range n).countP (Drawn invalidatedRows) = n := by
    intro n hn
    rw [List.countP_eq_length.mpr, List.length_range]
    intro k hk
    have := List.mem_range.mp hk
    exact hrows k (by omega)
  refine ⟨fun hlt ↦ hall count (by omega), fun hle ↦ ?_⟩
  calc 5 = (List.range 5).countP (Drawn invalidatedRows) := (hall 5 le_rfl).symm
    _ ≤ _ := (List.range_sublist.mpr hle).countP_le

/-- The loop prints the remaining lines before it passes the end of the address space. -/
def PrintsAll (G : DrawEnv) (v : HexView X) (p : Printing) (offset : Nat) : Prop :=
  ∃ rounds p', offset + v.bytesPerLine * rounds < 2 ^ 64 ∧
    v.drawRemaining G rounds p offset = some p' ∧ p'.byteProperties.areAllPrinted

/-- The loop ends when five lines were printed, or the rows left on the screen have room for the
others, are not too long for the padding and fit the address space. -/
theorem printsAll_iff {p : Printing} {visible : Interval} (hb : 0 < v.bytesPerLine)
    (hlt : v.bytesPerLine < 2 ^ 64) (hd : v.bytesPerLine ∣ v.startOffset)
    (hstart : visible.start = v.startOffset) (hstop : visible.stop ≤ 2 ^ 63)
    (hfour : p.byteProperties.data.length ≤ 4) (hle : p.byteProperties.line ≤ v.rowCount visible) :
    v.PrintsAll G p (v.firstEmptyRow visible) ↔
      5 ≤ p.byteProperties.line ∨ v.bytesPerLine ≤ 21 ∧
        5 + v.rowCount visible ≤ p.byteProperties.line + v.size.2 ∧
        v.startOffset + (v.rowCount visible + 5 - p.byteProperties.line) * v.bytesPerLine <
          2 ^ 64 := by
  obtain ⟨s, hs⟩ := hd
  obtain ⟨q, hq, hmax⟩ := firstEmptyRow_eq hb hlt visible (hstart.trans hs) hstop
  generalize v.rowCount visible = rows at hle hmax ⊢
  by_cases hcount : 5 ≤ p.byteProperties.line
  · have hall : p.byteProperties.areAllPrinted := (areAllPrinted_iff _).mpr hcount
    exact iff_of_true ⟨0, p, Nat.mod_lt _ (Nat.two_pow_pos _), rfl, hall⟩ (.inl hcount)
  · have hends {rounds : Nat} (hfit : v.bytesPerLine * (q + rounds) < 2 ^ 64) :=
      exists_drawRemaining_iff (G := G) hb hlt hs hfit hfour (by omega)
    generalize p.byteProperties.line = drawn at hle hcount hends ⊢
    have hmul : v.startOffset + (rows + 5 - drawn) * v.bytesPerLine =
        v.bytesPerLine * (s + (rows + 5 - drawn)) := by
      rw [hs, Nat.mul_add, Nat.mul_comm v.bytesPerLine (rows + 5 - drawn)]
    rw [PrintsAll, hq, hmul, or_iff_right hcount]
    constructor
    · rintro ⟨rounds, p', hfit, hp', hall⟩
      rw [← Nat.mul_add] at hfit
      obtain ⟨h21, hscreen, hreach⟩ := (hends hfit).mp ⟨p', hp', hall⟩
      have hmono : v.bytesPerLine * (s + (rows + 5 - drawn)) ≤ v.bytesPerLine * (q + rounds) :=
        Nat.mul_le_mul_left _ (by omega)
      exact ⟨h21, by omega, by omega⟩
    · rintro ⟨h21, hscreen, hfit⟩
      have hsum : q + (s + (rows + 5 - drawn) - q) = s + (rows + 5 - drawn) := by omega
      rw [← hsum] at hfit
      obtain ⟨p', hp', hall⟩ := (hends hfit).mpr ⟨h21, by omega, by omega⟩
      exact ⟨s + (rows + 5 - drawn) - q, p', by rw [← Nat.mul_add]; exact hfit, hp', hall⟩

/-- When the rows of data are drawn, the loop for the remaining lines ends exactly when five of
them were drawn, or when these and the rows left on the screen are five, lines are not too long
for the padding of an empty row, and the rows fit the address space. When the first five rows
are among those drawn, that is so exactly when five rows of data are visible, or the screen has
five rows and the other two conditions hold. -/
theorem remaining_lines_iff {p : Printing} (invalidatedRows : Option (List Nat))
    (currentBytes : List UInt8) (hcur : v.current = some b) (hlen : b.data.length < 2 ^ 63)
    (hlt : v.bytesPerLine < 2 ^ 64) (hd : v.bytesPerLine ∣ v.startOffset) (hh : 2 ≤ v.size.2)
    (hdata : v.drawData G invalidatedRows currentBytes = some p) :
    let visible := v.visibleBytes b.data.length
    let rows := v.rowCount visible
    let drawn := (List.range rows).countP (Drawn invalidatedRows)
    (v.PrintsAll G p (v.firstEmptyRow visible) ↔
      5 ≤ drawn ∨ v.bytesPerLine ≤ 21 ∧ 5 + rows ≤ drawn + v.size.2 ∧
        v.startOffset + (rows + 5 - drawn) * v.bytesPerLine < 2 ^ 64) ∧
    ((∀ row < 5, Drawn invalidatedRows row) →
      (v.PrintsAll G p (v.firstEmptyRow visible) ↔
        v.startOffset + 4 * v.bytesPerLine < visible.stop ∨
          v.bytesPerLine ≤ 21 ∧ 5 ≤ v.size.2 ∧ v.startOffset + 5 * v.bytesPerLine < 2 ^ 64)) := by
  intro visible rows drawn
  obtain ⟨hb, hfour, hline⟩ := exists_of_drawData hcur hh hdata
  change p.byteProperties.line = drawn at hline
  have hle : drawn ≤ rows := by
    have := List.countP_le_length (p := Drawn invalidatedRows) (l := List.range rows)
    rwa [List.length_range] at this
  have hiff := @printsAll_iff _ G v p visible hb hlt hd rfl ((Nat.min_le_left _ _).trans hlen)
    hfour (hline ▸ hle)
  rw [hline] at hiff
  refine ⟨hiff, fun hrows ↦ hiff.trans ?_⟩
  obtain ⟨hfew, hmany⟩ := countP_drawn hrows rows
  change rows < 5 → drawn = rows at hfew
  change 5 ≤ rows → 5 ≤ drawn at hmany
  have hfive : v.startOffset + 4 * v.bytesPerLine < visible.stop ↔ 5 ≤ rows := by
    rw [show rows = (visible.stop - v.startOffset + v.bytesPerLine - 1) / v.bytesPerLine from rfl,
      Nat.le_div_iff_mul_le hb]
    omega
  change 5 ≤ drawn ∨ v.bytesPerLine ≤ 21 ∧ 5 + rows ≤ drawn + v.size.2 ∧
    v.startOffset + (rows + 5 - drawn) * v.bytesPerLine < 2 ^ 64 ↔ _
  rw [hfive]
  by_cases hcount : 5 ≤ rows
  · exact iff_of_true (.inl (hmany hcount)) (.inl hcount)
  · have heq := hfew (by omega)
    rw [or_iff_right (by omega), or_iff_right hcount, heq,
      show rows + 5 - rows = 5 by omega]
    exact and_congr_right fun _ ↦ and_congr_left fun _ ↦ by omega

-- An empty buffer on a screen of this height.
private def emptyScreen (height : Nat) : HexView (XiRope.reference UInt8) :=
  withBuffrCollection (.withCurrentBuffer (.withRegions [] [⟨0, 0, true⟩])) (80, height)

/-- Five rows have room for all lines about an empty buffer. -/
theorem remaining_lines_five_rows :
    ∃ p, (emptyScreen 5).drawData .reference none [] = some p ∧
      (emptyScreen 5).PrintsAll .reference p 16 := by
  obtain ⟨p, hp⟩ := exists_drawData (G := .reference) (v := emptyScreen 5)
    (b := .withRegions [] [⟨0, 0, true⟩]) (by decide) (by decide) (by decide) (by decide)
    (by decide) rfl (by decide) (by decide) (by decide : ([] : List UInt8).length ≤ 4) none
  have hiff := (remaining_lines_iff (b := .withRegions [] [⟨0, 0, true⟩]) none [] rfl (by decide)
    (by decide) (by decide) (by decide) hp).2 fun _ _ ↦ rfl
  exact ⟨p, hp, hiff.mpr (.inr (by decide))⟩

/-- On a screen of four rows a line is left when they are used up, and the loop passes over all
offsets up to the end of the address space. -/
theorem remaining_lines_four_rows :
    ∃ p, (emptyScreen 4).drawData .reference none [] = some p ∧
      ¬ (emptyScreen 4).PrintsAll .reference p 16 := by
  obtain ⟨p, hp⟩ := exists_drawData (G := .reference) (v := emptyScreen 4)
    (b := .withRegions [] [⟨0, 0, true⟩]) (by decide) (by decide) (by decide) (by decide)
    (by decide) rfl (by decide) (by decide) (by decide : ([] : List UInt8).length ≤ 4) none
  obtain ⟨-, hfour, hline⟩ := exists_of_drawData
    (b := .withRegions [] [⟨0, 0, true⟩]) rfl (by decide) hp
  have hline : p.byteProperties.line = 1 := hline
  refine ⟨p, hp, ?_⟩
  rintro ⟨rounds, p', hfit, hp', hall⟩
  have hends := (exists_drawRemaining_iff (v := emptyScreen 4) (q := 1) (s := 0) (by decide)
    (by decide) rfl (by rw [Nat.mul_add]; exact hfit) hfour (by omega)).mp ⟨p', hp', hall⟩
  rw [hline] at hends
  exact absurd hends.2.1 (by decide)

end All

end HexView

end Tofu
