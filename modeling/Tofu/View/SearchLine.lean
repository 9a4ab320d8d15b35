import Tofu.Buffer.ByteRope
import Tofu.Modes.SearchPrompt
import Tofu.View.Styles

/-!
# The search prompt on the status line

`src/src/hex_view/view.rs:123–315` and `1178–1192`. The prompt shows a stretch of the
pattern that starts at a column kept from draw to draw. Each draw first brings the column
back to the pattern and the cursor and then moves it forward until what stands before the
cursor fits, in hex with the piece under the cursor and in ascii without it.

A subtraction that would underflow, a slice out of range and an `unwrap` of nothing are
`none`. Lengths fit the signed word.
-/

namespace Tofu

open Rope

variable {X : XiRope UInt8}

/-- `style::Print`, or `style::PrintStyledContent` with the colours given by `with` and `on`. -/
structure Span where
  text : String
  foreground : Option Color
  background : Option Color
  deriving DecidableEq, Repr

namespace Span

/-- A text in the colours that are set. -/
def plain (text : String) : Span := { text, foreground := none, background := none }

/-- A text in a colour. -/
def colored (text : String) (foreground : Color) : Span :=
  { text, foreground := some foreground, background := none }

/-- A text in a colour on a background. -/
def on (text : String) (foreground background : Color) : Span :=
  { text, foreground := some foreground, background := some background }

end Span

/-- What is queued for the piece at a position of the pattern, or for the end marker behind
the last one. -/
structure PromptCell where
  position : Nat
  spans : List Span
  deriving DecidableEq, Repr

/-- What `render_with_size` queues, and the start column it returns. -/
structure PromptLine where
  startColumn : Nat
  label : Span
  cells : List PromptCell
  deriving DecidableEq, Repr

/-- `format!("{:02x}", byte)`. -/
def hexPair (byte : UInt8) : String := hexText (byte >>> 4) ++ hexText (byte &&& 0xf)

namespace PatternPiece

/-- `view.rs:159–199`. -/
def hexSpans (underCursor halfPending : Bool) : PatternPiece → List Span
  | .literal byte =>
    if !underCursor then [.plain (hexPair byte ++ " ")]
    else if halfPending then
      [.plain (hexText (byte >>> 4)), .on (hexText (byte &&& 0xf)) .black .white, .plain " "]
    else [.on (hexPair byte) .black .white, .plain " "]
  | .wildcard =>
    if !underCursor then [.colored "** " .darkRed] else [.on "**" .darkRed .white, .plain " "]

/-- The columns of a piece in ascii, `view.rs:221–226`. -/
def asciiLength : PatternPiece → Nat
  | .wildcard => 1
  | .literal byte => if byte == 0x20 then 1 else if isAsciiGraphic byte then 1 else 4

/-- `view.rs:253–299`. -/
def asciiSpans (underCursor : Bool) : PatternPiece → List Span
  | .literal byte =>
    let char := String.ofList [Char.ofNat byte.toNat]
    let escaped := "<" ++ hexPair byte ++ ">"
    if !underCursor && (isAsciiGraphic byte || byte == 0x20) then [.plain char]
    else if !underCursor then [.on escaped .black .darkGrey]
    else if isAsciiGraphic byte || byte == 0x20 then [.on char .black .white]
    else [.on escaped .black .white]
  | .wildcard => if !underCursor then [.colored "*" .darkRed] else [.on "*" .darkRed .white]

end PatternPiece

/-- The end marker in hex, `view.rs:201–211`. -/
def hexEnd : List Span := [.on "  " .black .white, .plain " "]

/-- The end marker in ascii, `view.rs:302–311`. -/
def asciiEnd : List Span := [.on " " .black .white]

/-- The start column from which the cursor is on the line in hex, `view.rs:149–151`; `count`
pieces fit. -/
def scrollHex (cursor count startColumn : Nat) : Option Nat :=
  if cursor ≥ startColumn + count then (checkedSub cursor count).map (· + 1) else some startColumn

/-- The loop that draws in hex, `view.rs:155–200`. -/
def drawHexPieces (startColumn normalizedCursor : Nat) (halfPending : Bool)
    (pieces : List PatternPiece) : List PromptCell :=
  pieces.mapIdx fun i piece ↦
    { position := startColumn + i, spans := piece.hexSpans (normalizedCursor == i) halfPending }

/-- How many pieces are dropped until `remainingDelta` columns are free, `view.rs:230–238`;
`none` when no position is found. -/
def numDroppedPieces : Int → List Nat → Option Nat
  | _, [] => none
  | remainingDelta, x :: lengths =>
    if remainingDelta ≤ 0 then some 0
    else (numDroppedPieces (remainingDelta - x) lengths).map (· + 1)

/-- The start column from which what stands before the cursor fits in ascii, with the lengths
of the pieces from there on, `view.rs:229–241`. -/
def scrollAscii (requiredLength maxWidth startColumn : Nat) (lengths : List Nat) :
    Option (Nat × List Nat) :=
  if requiredLength > maxWidth then do
    let numDropped ← numDroppedPieces (requiredLength - maxWidth : Nat) lengths
    let lengths ← checkedSlice lengths numDropped lengths.length
    some (startColumn + numDropped, lengths)
  else some (startColumn, lengths)

/-- The loop that draws in ascii while the pieces fit, `view.rs:244–300`. -/
def drawPieces (startColumn normalizedCursor : Nat) :
    Nat → Nat → List (PatternPiece × Nat) → List PromptCell
  | _, _, [] => []
  | i, maxWidth, (piece, length) :: rest =>
    if maxWidth < length then []
    else
      { position := startColumn + i, spans := piece.asciiSpans (normalizedCursor == i) } ::
        drawPieces startColumn normalizedCursor (i + 1) (maxWidth - length) rest

namespace Search

/-- `view.rs:141–146`: the start column, brought back to the pattern or to the cursor. -/
def clampColumn (s : Search) (lastStartCol : Nat) : Nat :=
  if s.pattern.pieces.length ≤ lastStartCol then max 1 s.pattern.pieces.length - 1
  else if s.cursor < lastStartCol then s.cursor
  else lastStartCol

/-- The end marker, if the cursor is behind the pattern, `view.rs:201–211,302–311`. -/
def endMarker (s : Search) (spans : List Span) : List PromptCell :=
  if s.cursor = s.pattern.pieces.length then [{ position := s.pattern.pieces.length, spans }]
  else []

/-- `view.rs:148–214`. -/
def renderHex (s : Search) (maxWidth startColumn : Nat) : Option (Nat × List PromptCell) := do
  let pieces := s.pattern.pieces
  let startColumn ← scrollHex s.cursor (maxWidth / 3) startColumn
  let lastByte := min pieces.length (startColumn + maxWidth / 3)
  let normalizedCursor ← checkedSub s.cursor startColumn
  let shown ← checkedSlice pieces startColumn lastByte
  let cells := drawHexPieces startColumn normalizedCursor s.hexHalf.isSome shown
  some (startColumn, cells ++ s.endMarker hexEnd)

/-- `view.rs:216–313`. -/
def renderAscii (s : Search) (maxWidth startColumn : Nat) : Option (Nat × List PromptCell) := do
  let pieces := s.pattern.pieces
  let maxWidth ← checkedSub maxWidth (if s.cursor = pieces.length then 1 else 0)
  let shown ← checkedSlice pieces startColumn pieces.length
  let lengths := shown.map PatternPiece.asciiLength
  let count ← checkedSub s.cursor startColumn
  let before ← checkedSlice lengths 0 count
  let (startColumn, lengths) ← scrollAscii before.sum maxWidth startColumn lengths
  let normalizedCursor ← checkedSub s.cursor startColumn
  let shown ← checkedSlice pieces startColumn pieces.length
  let cells := drawPieces startColumn normalizedCursor 0 maxWidth (shown.zip lengths)
  some (startColumn, cells ++ s.endMarker asciiEnd)

/-- What follows the label, from a start column brought back to the pattern. -/
def renderPieces (s : Search) (maxWidth startColumn : Nat) : Option (Nat × List PromptCell) :=
  if s.hex then s.renderHex maxWidth startColumn else s.renderAscii maxWidth startColumn

/-- `view.rs:124–314`. -/
def renderWithSize (s : Search) (maxWidth lastStartCol : Nat) : Option PromptLine := do
  let label := Span.on "search:" .white .blue
  let maxWidth ← checkedSub maxWidth label.text.length
  let (startColumn, cells) ← s.renderPieces maxWidth (s.clampColumn lastStartCol)
  some { startColumn, label, cells }

/-- The cell of the piece under the cursor, or of the end marker. -/
def cursorCell (s : Search) : PromptCell where
  position := s.cursor
  spans :=
    match s.pattern.pieces[s.cursor]? with
    | some piece =>
      if s.hex then piece.hexSpans true s.hexHalf.isSome else piece.asciiSpans true
    | none => if s.hex then hexEnd else asciiEnd

/-- The prompt is drawn and takes a key; the column of the draw is kept for the next one,
`view.rs:1189–1191`. -/
def redraw (E : SearchEngine) (width : Nat) (input : KeyEvent × CurrentBuffer X)
    (p : Search × Nat) : Option (Search × Nat) := do
  let line ← p.1.renderWithSize width p.2
  let s ← p.1.press E input
  some (s, line.startColumn)

/-! ## Where a draw starts -/

private theorem clampColumn_le {s : Search} {col : Nat}
    (hcol : s.pattern.pieces = [] ∨ col ≤ s.cursor + 1) : s.clampColumn col ≤ s.cursor := by
  unfold clampColumn
  split
  · next hlen =>
    rcases hcol with hnil | hcol
    · rw [hnil]
      exact Nat.zero_le _
    · omega
  · split <;> omega

end Search

/-- A piece takes one column, or four. -/
theorem PatternPiece.asciiLength_le (piece : PatternPiece) : piece.asciiLength ≤ 4 := by
  unfold asciiLength
  split
  · decide
  · split
    · decide
    · split <;> decide

/-- Where enough columns stand before a position, the first such position is found. -/
theorem numDroppedPieces_of_le {delta : Int} {lengths : List Nat} {n : Nat}
    (hn : n < lengths.length) (h : delta ≤ (lengths.take n).sum) :
    ∃ d ≤ n, numDroppedPieces delta lengths = some d ∧ delta ≤ (lengths.take d).sum ∧
      ∀ k < d, ((lengths.take k).sum : Int) < delta := by
  induction lengths generalizing delta n with
  | nil => cases hn
  | cons x lengths ih =>
    by_cases hd : delta ≤ 0
    · exact ⟨0, Nat.zero_le n, if_pos hd, hd, fun k hk ↦ absurd hk (Nat.not_lt_zero k)⟩
    · rw [numDroppedPieces, if_neg hd]
      cases n with
      | zero => simp at h; omega
      | succ n =>
        rw [List.take_succ_cons, List.sum_cons] at h
        have hrest : delta - x ≤ (lengths.take n).sum := by omega
        obtain ⟨d, hdn, hsome, hreached, hfirst⟩ := ih (Nat.lt_of_succ_lt_succ hn) hrest
        refine ⟨d + 1, Nat.succ_le_succ hdn, by rw [hsome]; rfl, ?_, ?_⟩
        · rw [List.take_succ_cons, List.sum_cons]
          omega
        · intro k hk
          cases k with
          | zero => exact Int.not_le.mp hd
          | succ k =>
            have := hfirst k (Nat.lt_of_succ_lt_succ hk)
            rw [List.take_succ_cons, List.sum_cons]
            omega

/-- A piece is drawn exactly when it and those before it fit. -/
theorem mem_drawPieces (start cursor i width : Nat) {n : Nat} {pieces : List PatternPiece}
    {piece : PatternPiece} (h : pieces[n]? = some piece) :
    { position := start + (i + n), spans := piece.asciiSpans (cursor == i + n) : PromptCell } ∈
        drawPieces start cursor i width (pieces.map fun p ↦ (p, p.asciiLength)) ↔
      ((pieces.take (n + 1)).map PatternPiece.asciiLength).sum ≤ width := by
  induction pieces generalizing i width n with
  | nil => cases h
  | cons p pieces ih =>
    rw [List.map_cons, drawPieces, List.take_succ_cons, List.map_cons, List.sum_cons]
    by_cases hw : width < p.asciiLength
    · rw [if_pos hw]
      constructor
      · intro hmem
        cases hmem
      · omega
    · rw [if_neg hw, List.mem_cons]
      cases n with
      | zero =>
        obtain rfl : p = piece := Option.some.inj h
        simp
        omega
      | succ n =>
        have hne : start + (i + (n + 1)) ≠ start + i := by omega
        have hshift : i + (n + 1) = i + 1 + n := by omega
        simp only [PromptCell.mk.injEq, hne, false_and, false_or]
        rw [hshift, ih _ _ (List.getElem?_cons_succ ▸ h)]
        omega

namespace Search

variable {s : Search}

private theorem cursorCell_of_some {piece : PatternPiece}
    (h : s.pattern.pieces[s.cursor]? = some piece) :
    s.cursorCell = { position := s.cursor, spans :=
      if s.hex then piece.hexSpans true s.hexHalf.isSome else piece.asciiSpans true } := by
  rw [cursorCell, h]

private theorem cursorCell_at_end (h : s.cursor = s.pattern.pieces.length) :
    s.cursorCell =
      { position := s.cursor, spans := if s.hex then hexEnd else asciiEnd } := by
  rw [cursorCell, List.getElem?_eq_none h.ge]

private theorem mem_endMarker (h : s.cursor = s.pattern.pieces.length) (spans : List Span) :
    { position := s.cursor, spans : PromptCell } ∈ s.endMarker spans := by
  rw [endMarker, if_pos h, h]
  exact List.mem_singleton_self _

private theorem scrollHex_spec {cursor start count : Nat} (hc : 1 ≤ count) (hs : start ≤ cursor) :
    ∃ col, scrollHex cursor count start = some col ∧ col ≤ cursor ∧ cursor < col + count := by
  unfold scrollHex
  by_cases h : cursor ≥ start + count
  · refine ⟨cursor - count + 1, ?_, by omega, by omega⟩
    rw [if_pos h, checkedSub_of_le (by omega)]
    rfl
  · exact ⟨start, if_neg h, hs, by omega⟩

/-- In hex every draw succeeds and shows what is under the cursor. -/
theorem renderHex_spec (h : s.WellFormed) (hhex : s.hex = true) {start : Nat} (width : Nat)
    (hw : 3 ≤ width) (hs : start ≤ s.cursor) :
    ∃ col cells, s.renderHex width start = some (col, cells) ∧ col ≤ s.cursor ∧
      s.cursorCell ∈ cells := by
  have hle := h.cursor_le
  have hk : 1 ≤ width / 3 := by omega
  obtain ⟨col, hcol, hcolle, hlt⟩ := scrollHex_spec hk hs
  have hslice : checkedSlice s.pattern.pieces col
      (min s.pattern.pieces.length (col + width / 3)) = some ((s.pattern.pieces.drop col).take
        (min s.pattern.pieces.length (col + width / 3) - col)) :=
    checkedSlice_of_le (by omega) (by omega)
  have hrender : s.renderHex width start = some (col, drawHexPieces col (s.cursor - col)
      s.hexHalf.isSome ((s.pattern.pieces.drop col).take
        (min s.pattern.pieces.length (col + width / 3) - col)) ++ s.endMarker hexEnd) := by
    rw [renderHex, hcol]
    simp only [Option.bind_eq_bind, Option.bind_some, checkedSub_of_le hcolle, hslice]
  refine ⟨col, _, hrender, hcolle, ?_⟩
  rw [List.mem_append]
  rcases Nat.lt_or_eq_of_le hle with hin | hend
  · left
    have hpiece := List.getElem?_eq_getElem hin
    rw [cursorCell_of_some hpiece, if_pos hhex, drawHexPieces, List.mem_mapIdx]
    refine ⟨s.cursor - col, ?_, ?_⟩
    · rw [List.length_take, List.length_drop]
      omega
    · simp [Nat.add_sub_cancel' hcolle]
  · right
    rw [cursorCell_at_end hend, if_pos hhex]
    exact mem_endMarker hend hexEnd

private theorem checkedSlice_to_end {α : Type} {xs : List α} {first : Nat} (h : first ≤ xs.length) :
    checkedSlice xs first xs.length = some (xs.drop first) := by
  rw [checkedSlice_of_le h le_rfl, ← List.length_drop, List.take_length]

/-- The unwrapped position is found: the lengths before the cursor are enough to drop, and at
the end of the pattern all but the last are. It is the first from which the rest before the
cursor fits. -/
theorem scrollAscii_spec {n width : Nat} {lengths : List Nat} (hn : n ≤ lengths.length)
    (hfit : n < lengths.length ∨ ∀ x ∈ lengths, x ≤ width) (start : Nat) :
    ∃ d ≤ n, scrollAscii (lengths.take n).sum width start lengths =
        some (start + d, lengths.drop d) ∧
      (lengths.take n).sum ≤ (lengths.take d).sum + width ∧
      ∀ k < d, (lengths.take k).sum + width < (lengths.take n).sum := by
  unfold scrollAscii
  by_cases hreq : (lengths.take n).sum > width
  · obtain ⟨m, hmn, hm, hsum⟩ : ∃ m ≤ n, m < lengths.length ∧
        (lengths.take n).sum ≤ (lengths.take m).sum + width := by
      by_cases hlt : n < lengths.length
      · exact ⟨n, le_rfl, hlt, Nat.le_add_right _ _⟩
      · have hpos : n ≠ 0 := by
          rintro rfl
          simp at hreq
        obtain ⟨m, rfl⟩ := Nat.exists_eq_succ_of_ne_zero hpos
        have hx := (hfit.resolve_left hlt) (lengths.get ⟨m, hn⟩) (List.get_mem _ _)
        refine ⟨m, Nat.le_succ m, hn, ?_⟩
        rw [← List.take_append_getElem hn, List.sum_append_nat, List.sum_singleton]
        exact Nat.add_le_add_left hx _
    have hdelta : (((lengths.take n).sum - width : Nat) : Int) ≤ (lengths.take m).sum := by omega
    obtain ⟨d, hdm, hd, hreached, hfirst⟩ := numDroppedPieces_of_le hm hdelta
    refine ⟨d, by omega, ?_, by omega, fun k hk ↦ ?_⟩
    · rw [if_pos hreq, hd]
      simp only [Option.bind_eq_bind, Option.bind_some,
        checkedSlice_to_end (show d ≤ lengths.length by omega)]
    · have := hfirst k hk
      omega
  · exact ⟨0, Nat.zero_le n, if_neg hreq, by omega, fun k hk ↦ absurd hk (Nat.not_lt_zero k)⟩

/-- The columns of the pieces from a position up to another in ascii. -/
def columns (s : Search) (first last : Nat) : Nat :=
  (((s.pattern.pieces.take last).drop first).map PatternPiece.asciiLength).sum

/-- A stretch of the pattern takes the columns of its two parts. -/
theorem columns_add {first mid last : Nat} (hfirst : first ≤ mid) (hmid : mid ≤ last)
    (hle : mid ≤ s.pattern.pieces.length) :
    s.columns first mid + s.columns mid last = s.columns first last := by
  have hsplit : (s.pattern.pieces.take last).drop first =
      (s.pattern.pieces.take mid).drop first ++ (s.pattern.pieces.take last).drop mid := by
    have hlen : first ≤ (s.pattern.pieces.take mid).length := by
      rw [List.length_take]
      omega
    rw [← List.drop_append_of_le_length hlen, ← Nat.min_eq_left hmid, ← List.take_take,
      Nat.min_eq_left hmid, List.take_append_drop]
  rw [columns, columns, columns, hsplit, List.map_append, List.sum_append_nat]

private theorem sum_take_lengths (start n : Nat) :
    (((s.pattern.pieces.drop start).map PatternPiece.asciiLength).take n).sum =
      s.columns start (start + n) := by
  rw [columns, ← List.map_take, List.drop_take, Nat.add_sub_cancel_left]

/-- In ascii every draw succeeds, from the first column at which what stands before the cursor
fits. -/
theorem renderAscii_eq (h : s.WellFormed) {width start room : Nat} (hw : 5 ≤ width)
    (hs : start ≤ s.cursor)
    (hroom : room = width - if s.cursor = s.pattern.pieces.length then 1 else 0) :
    ∃ col, start ≤ col ∧ col ≤ s.cursor ∧ s.renderAscii width start = some (col,
        drawPieces col (s.cursor - col) 0 room
          ((s.pattern.pieces.drop col).map fun p ↦ (p, p.asciiLength)) ++ s.endMarker asciiEnd) ∧
      s.columns col s.cursor ≤ room ∧ ∀ k, start ≤ k → k < col → room < s.columns k s.cursor := by
  have hle := h.cursor_le
  have hstart : start ≤ s.pattern.pieces.length := Nat.le_trans hs hle
  have hsums := sum_take_lengths (s := s) start
  set lengths := (s.pattern.pieces.drop start).map PatternPiece.asciiLength with hlengths
  have hlen : lengths.length = s.pattern.pieces.length - start := by
    rw [hlengths, List.length_map, List.length_drop]
  have hfit : s.cursor - start < lengths.length ∨ ∀ x ∈ lengths, x ≤ room := by
    rcases Nat.lt_or_eq_of_le hle with hin | hend
    · left
      omega
    · right
      intro x hx
      obtain ⟨piece, -, rfl⟩ := List.mem_map.mp hx
      have := piece.asciiLength_le
      rw [hroom, if_pos hend]
      omega
  obtain ⟨d, hd, hscroll, hreached, hfirst⟩ :=
    scrollAscii_spec (n := s.cursor - start) (by omega) hfit start
  have hcol : start + d ≤ s.cursor := by omega
  have hzip : (s.pattern.pieces.drop (start + d)).zip (lengths.drop d) =
      (s.pattern.pieces.drop (start + d)).map fun p ↦ (p, p.asciiLength) := by
    rw [hlengths, ← List.map_drop, List.drop_drop, List.map_prod_left_eq_zip]
  have hbefore : checkedSlice lengths 0 (s.cursor - start) =
      some ((lengths.drop 0).take (s.cursor - start - 0)) :=
    checkedSlice_of_le (Nat.zero_le _) (by omega)
  simp only [hsums, Nat.add_sub_cancel' hs] at hreached hfirst
  refine ⟨start + d, Nat.le_add_right _ _, hcol, ?_, ?_, fun k hk hkd ↦ ?_⟩
  · rw [renderAscii]
    simp only [Option.bind_eq_bind]
    rw [checkedSub_of_le (by split <;> omega), Option.bind_some, checkedSlice_to_end hstart,
      Option.bind_some, checkedSub_of_le hs, Option.bind_some, ← hlengths, hbefore]
    simp only [Option.bind_some, List.drop_zero, Nat.sub_zero, ← hroom, hscroll,
      checkedSub_of_le hcol, checkedSlice_to_end (Nat.le_trans hcol hle), hzip]
  · have := columns_add (s := s) (Nat.le_add_right start d) hcol (Nat.le_trans hcol hle)
    omega
  · have hadd := columns_add (s := s) hk (show k ≤ s.cursor by omega) (by omega)
    have := hfirst (k - start) (by omega)
    rw [Nat.add_sub_cancel' hk] at this
    omega

/-- The end marker is always shown, a piece under the cursor only if it fits as well wherever
those before it do. -/
theorem renderAscii_spec (h : s.WellFormed) (hhex : s.hex = false) {start : Nat} (width : Nat)
    (hw : 5 ≤ width) (hs : start ≤ s.cursor) :
    ∃ col cells, s.renderAscii width start = some (col, cells) ∧ col ≤ s.cursor ∧
      (s.cursorCell ∈ cells ↔ s.cursor = s.pattern.pieces.length ∨
        ∀ k, start ≤ k → k ≤ s.cursor → s.columns k s.cursor ≤ width →
          s.columns k (s.cursor + 1) ≤ width) := by
  obtain ⟨col, hstart, hcol, hrender, hfits, hfirst⟩ := renderAscii_eq h hw hs rfl
  refine ⟨col, _, hrender, hcol, ?_⟩
  have hascii : ¬ s.hex = true := by rw [hhex]; exact Bool.false_ne_true
  rcases Nat.lt_or_eq_of_le h.cursor_le with hin | hend
  · have hne := Nat.ne_of_lt hin
    have hpiece : (s.pattern.pieces.drop col)[s.cursor - col]? =
        some (s.pattern.pieces.get ⟨s.cursor, hin⟩) := by
      rw [List.getElem?_drop, Nat.add_sub_cancel' hcol]
      exact List.getElem?_eq_getElem hin
    have hmem := mem_drawPieces col (s.cursor - col) 0 width hpiece
    rw [Nat.zero_add, Nat.add_sub_cancel' hcol, beq_self_eq_true, List.map_take, sum_take_lengths,
      show col + (s.cursor - col + 1) = s.cursor + 1 by omega] at hmem
    rw [if_neg hne, Nat.sub_zero] at hfits hfirst
    rw [cursorCell_of_some (List.getElem?_eq_getElem hin), if_neg hascii, endMarker, if_neg hne,
      if_neg hne, List.append_nil, Nat.sub_zero]
    refine hmem.trans ⟨fun hthrough ↦ .inr fun k hk hkc hbefore ↦ ?_,
      fun hor ↦ hor.resolve_left hne col hstart hcol hfits⟩
    -- from a later column than the first, less has to fit
    have hck : col ≤ k := Nat.not_lt.mp fun hlt ↦ Nat.not_le.mpr (hfirst k hk hlt) hbefore
    have := columns_add (s := s) hck (show k ≤ s.cursor + 1 by omega) (by omega)
    omega
  · refine iff_of_true ?_ (Or.inl hend)
    rw [cursorCell_at_end hend, if_neg hascii, List.mem_append]
    exact Or.inr (mem_endMarker hend asciiEnd)

/-! ## Runs -/

/-- A draw that succeeds from a column at or before the cursor and shows what is under it. -/
def Shown (width : Nat) (p : Search × Nat) : Prop :=
  ∃ line, p.1.renderWithSize width p.2 = some line ∧ line.startColumn ≤ p.1.cursor ∧
    p.1.cursorCell ∈ line.cells

/-- In ascii, from the last start column on: wherever the pieces before the cursor fit behind the
label, the one under the cursor fits too. -/
def CursorFits (width : Nat) (p : Search × Nat) : Prop :=
  p.1.hex = false → p.1.cursor < p.1.pattern.pieces.length →
    ∀ k, min p.2 p.1.cursor ≤ k → k ≤ p.1.cursor → p.1.columns k p.1.cursor ≤ width - 7 →
      p.1.columns k (p.1.cursor + 1) ≤ width - 7

/-- The column is left by another prompt or is that of the last draw, one behind the cursor at
most. -/
structure Drawable (p : Search × Nat) : Prop where
  wellFormed : p.1.WellFormed
  column_le : p.1.pattern.pieces = [] ∨ p.2 ≤ p.1.cursor + 1

variable {width : Nat} {p : Search × Nat}

/-- The label takes seven columns. -/
theorem renderWithSize_eq (hw : 12 ≤ width) (s : Search) (last : Nat) :
    s.renderWithSize width last = (s.renderPieces (width - 7) (s.clampColumn last)).map fun r ↦
      { startColumn := r.1, label := .on "search:" .white .blue, cells := r.2 } := by
  have hlabel : checkedSub width (Span.on "search:" .white .blue).text.length =
      some (width - 7) := checkedSub_of_le (Nat.le_trans (by decide) hw)
  simp only [renderWithSize, hlabel, Option.bind_eq_bind, Option.bind_some]
  cases s.renderPieces (width - 7) (s.clampColumn last) <;> rfl

/-- Before the last piece the draw starts its search at the last column, or at the cursor. -/
theorem Drawable.clampColumn_eq {s : Search} {last : Nat} (h : Drawable (s, last))
    (hin : s.cursor < s.pattern.pieces.length) : s.clampColumn last = min last s.cursor := by
  have hlast : last ≤ s.cursor + 1 := h.column_le.resolve_left fun hnil ↦ by
    change s.pattern.pieces = [] at hnil
    rw [hnil] at hin
    exact Nat.not_lt_zero _ hin
  unfold clampColumn
  split
  · omega
  · split <;> omega

/-- A draw succeeds, starts at or before the cursor, and shows the cursor exactly when it fits. -/
theorem Drawable.render (h : Drawable p) (hw : 12 ≤ width) :
    ∃ line, p.1.renderWithSize width p.2 = some line ∧ line.startColumn ≤ p.1.cursor ∧
      (p.1.cursorCell ∈ line.cells ↔ CursorFits width p) := by
  obtain ⟨s, last⟩ := p
  have hclamp : s.clampColumn last ≤ s.cursor := clampColumn_le h.column_le
  rw [renderWithSize_eq hw, renderPieces]
  cases hhex : s.hex with
  | true =>
    obtain ⟨col, cells, hr, hcol, hmem⟩ :=
      renderHex_spec h.wellFormed hhex (width - 7) (by omega) hclamp
    refine ⟨_, by rw [if_pos rfl, hr]; rfl, hcol, iff_of_true hmem fun hascii ↦ ?_⟩
    exact absurd (hhex.symm.trans hascii) Bool.noConfusion
  | false =>
    obtain ⟨col, cells, hr, hcol, hmem⟩ :=
      renderAscii_spec h.wellFormed hhex (width - 7) (by omega) hclamp
    refine ⟨_, by rw [if_neg Bool.false_ne_true, hr]; rfl, hcol, hmem.trans ?_⟩
    rcases Nat.lt_or_eq_of_le h.wellFormed.cursor_le with hin | hend
    · rw [h.clampColumn_eq hin, or_iff_right (Nat.ne_of_lt hin)]
      exact ⟨fun hfits _ _ ↦ hfits, fun hfits ↦ hfits hhex hin⟩
    · exact iff_of_true (.inl hend) fun _ hin ↦ absurd hend (Nat.ne_of_lt hin)

/-- A draw and a key leave a prompt that can be drawn again. -/
theorem Drawable.redraw {E : SearchEngine} {input : KeyEvent × CurrentBuffer X}
    {p' : Search × Nat} (h : Drawable p) (hw : 12 ≤ width)
    (hr : Search.redraw E width input p = some p') : Drawable p' := by
  obtain ⟨line, hline, hr⟩ := Option.bind_eq_some_iff.mp hr
  obtain ⟨s, hpress, hr⟩ := Option.bind_eq_some_iff.mp hr
  obtain ⟨line', hline', hcol, -⟩ := h.render hw
  obtain rfl := Option.some.inj (hline.symm.trans hline')
  obtain rfl := Option.some.inj hr
  have hfollows := h.wellFormed.press hpress
  exact ⟨hfollows.wellFormed, Or.inr (Nat.le_trans hcol hfollows.cursor_le)⟩

private theorem drawable_new (next : SearchAcceptor) (hex : Bool) (col : Nat) :
    Drawable (Search.new next hex, col) := ⟨wellFormed_new next hex, Or.inl rfl⟩

/-- Along every run of keys with a draw after each, on a line of at least twelve columns and
from any column left over, no draw fails and each starts at or before the cursor; a hex prompt
and the end marker are always shown. The cursor is shown in every draw exactly when, in the
ascii ones, the piece under it fits wherever from the last start column on those before it do. -/
theorem redraw_shown_iff (E : SearchEngine) (next : SearchAcceptor) (hex : Bool) (col : Nat)
    (hw : 12 ≤ width) (inputs : List (KeyEvent × CurrentBuffer X)) :
    Always (redraw E width) (fun p ↦ ∃ line, p.1.renderWithSize width p.2 = some line ∧
      line.startColumn ≤ p.1.cursor ∧
      (p.1.hex = true ∨ p.1.cursor = p.1.pattern.pieces.length → p.1.cursorCell ∈ line.cells))
      inputs (.new next hex, col) ∧
    (Always (redraw E width) (Shown width) inputs (.new next hex, col) ↔
      Always (redraw E width) (CursorFits width) inputs (.new next hex, col)) := by
  have hinv : Always (redraw E width) Drawable inputs (.new next hex, col) :=
    always_of_step (drawable_new next hex col) fun _ _ _ h hr ↦ h.redraw hw hr
  refine ⟨hinv.imp fun p h ↦ ?_, always_congr hinv fun p h ↦ ?_⟩
  · obtain ⟨line, hline, hcol, hmem⟩ := h.render hw
    refine ⟨line, hline, hcol, fun hor ↦ hmem.mpr fun hascii hin ↦ ?_⟩
    rcases hor with hhex | hend
    · exact absurd (hascii.symm.trans hhex) Bool.false_ne_true
    · exact absurd hend (Nat.ne_of_lt hin)
  · obtain ⟨line, hline, hcol, hmem⟩ := h.render hw
    constructor
    · rintro ⟨line', hline', -, hcell⟩
      obtain rfl := Option.some.inj (hline.symm.trans hline')
      exact hmem.mp hcell
    · intro hfits
      exact ⟨line, hline, hcol, hmem.mpr hfits⟩

/-- A hex prompt of twelve columns, of which a piece takes three, after two digits. -/
theorem redraw_shown_hexDigits :
    let b : CurrentBuffer (XiRope.reference UInt8) := .fromDataAndPath [] none
    12 ≤ 12 ∧
      Always (redraw .reference 12) (fun p ↦ ∃ line, p.1.renderWithSize 12 p.2 = some line ∧
        line.startColumn ≤ p.1.cursor ∧
        (p.1.hex = true ∨ p.1.cursor = p.1.pattern.pieces.length →
          p.1.cursorCell ∈ line.cells))
        [(charKey ('4', false), b), (charKey ('1', false), b)] (.new .collapse true, 3) :=
  ⟨le_rfl, (redraw_shown_iff .reference .collapse true 3 le_rfl _).1⟩

/-- Two null bytes, of four columns each, with the cursor moved back before both and forward
again: the draw starts at the first and has no room for the second, which is under the cursor. -/
theorem redraw_cursor_behind :
    let b : CurrentBuffer (XiRope.reference UInt8) := .fromDataAndPath [] none
    let insertNull := { code := .char 'n', modifiers := ⟨false, true, false⟩ : KeyEvent }
    let keys := [insertNull, insertNull, .plain .left, .plain .left, .plain .right]
    ∃ p line, runSteps (redraw .reference 12) (keys.map (·, b)) (.new .collapse false, 0) = some p ∧
      p.1.renderWithSize 12 p.2 = some line ∧ p.1.cursor = 1 ∧ line.startColumn = 0 ∧
      line.cells.map PromptCell.position = [0] :=
  ⟨_, _, rfl, rfl, rfl, rfl, rfl⟩

end Search

end Tofu
