import Tofu.View.ByteLines
import Tofu.View.CommandLine

/-!
# Prompts stay on their line

Whatever a prompt holds, what `render_with_size` (`src/src/hex_view/view.rs:123–370`) queues
for it is no longer than the line it is given, so that the terminal does not break the line.
-/

namespace Tofu

open ByteProperties (toList_hexText_digits)

/-! ## Search prompts -/

/-- The text of some cells. -/
def cellsText (cells : List PromptCell) : List Char :=
  (cells.flatMap PromptCell.spans).flatMap fun span ↦ span.text.toList

private theorem cellsText_cons (cell : PromptCell) (cells : List PromptCell) :
    cellsText (cell :: cells) =
      (cell.spans.flatMap fun span ↦ span.text.toList) ++ cellsText cells := by
  rw [cellsText, List.flatMap_cons, List.flatMap_append, cellsText]

private theorem cellsText_append (cells cells' : List PromptCell) :
    cellsText (cells ++ cells') = cellsText cells ++ cellsText cells' := by
  rw [cellsText, List.flatMap_append, List.flatMap_append, cellsText, cellsText]

private theorem length_hexPair (byte : UInt8) : (hexPair byte).toList.length = 2 := by
  obtain ⟨hhigh, hlow⟩ := toList_hexText_digits byte
  rw [hexPair, String.toList_append, hhigh, hlow]
  rfl

/-- A piece takes three columns in hex. -/
theorem PatternPiece.length_hexSpans (piece : PatternPiece) (underCursor halfPending : Bool) :
    ((piece.hexSpans underCursor halfPending).flatMap fun span ↦ span.text.toList).length = 3 := by
  cases piece with
  | wildcard => cases underCursor <;> rfl
  | literal byte =>
    obtain ⟨hhigh, hlow⟩ := toList_hexText_digits byte
    have hpair := length_hexPair byte
    cases underCursor <;> cases halfPending <;>
      simp [hexSpans, Span.plain, Span.on, hhigh, hlow] at hpair ⊢ <;> omega

/-- The columns that are counted for a piece in ascii are those that it takes. -/
theorem PatternPiece.length_asciiSpans (piece : PatternPiece) (underCursor : Bool) :
    ((piece.asciiSpans underCursor).flatMap fun span ↦ span.text.toList).length =
      piece.asciiLength := by
  cases piece with
  | wildcard => cases underCursor <;> rfl
  | literal byte =>
    have hpair := length_hexPair byte
    unfold asciiSpans asciiLength
    by_cases hblank : byte = 0x20
    · subst hblank
      cases underCursor <;> simp [Span.plain, Span.on]
    · by_cases hgraphic : isAsciiGraphic byte
      · cases underCursor <;> simp [Span.plain, Span.on, hblank, hgraphic]
      · cases underCursor <;>
          simp [Span.on, hblank, hgraphic, hpair]

private theorem length_drawHexPieces (startColumn cursor : Nat) (halfPending : Bool)
    (pieces : List PatternPiece) :
    (cellsText (drawHexPieces startColumn cursor halfPending pieces)).length =
      pieces.length * 3 := by
  unfold drawHexPieces
  induction pieces using List.reverseRecOn with
  | nil => rfl
  | append_singleton pieces piece ih =>
    rw [List.mapIdx_append, cellsText_append, List.length_append, ih, List.length_append,
      List.length_singleton, Nat.succ_mul]
    congr 1
    simp only [List.mapIdx_cons, List.mapIdx_nil, cellsText_cons, List.length_append]
    rw [PatternPiece.length_hexSpans]
    rfl

/-- The loop stops before a piece that does not fit. -/
theorem length_drawPieces (startColumn cursor i width : Nat) (pieces : List PatternPiece) :
    (cellsText (drawPieces startColumn cursor i width
      (pieces.map fun p ↦ (p, p.asciiLength)))).length ≤ width := by
  induction pieces generalizing i width with
  | nil => exact Nat.zero_le _
  | cons piece pieces ih =>
    rw [List.map_cons, drawPieces]
    split
    · exact Nat.zero_le _
    · have := ih (i + 1) (width - piece.asciiLength)
      rw [cellsText_cons, List.length_append, piece.length_asciiSpans]
      omega

namespace Search

variable {s : Search} {width start col : Nat} {cells : List PromptCell}

private theorem length_endMarker (spans : List Span) :
    (cellsText (s.endMarker spans)).length = if s.cursor = s.pattern.pieces.length then
      (spans.flatMap fun span ↦ span.text.toList).length else 0 := by
  unfold endMarker
  split
  · simp [cellsText]
  · rfl

/-- In hex the end marker takes the place of a piece. -/
theorem length_renderHex (h : s.renderHex width start = some (col, cells)) :
    (cellsText cells).length ≤ width := by
  obtain ⟨first, hscroll, h⟩ := Option.bind_eq_some_iff.mp h
  obtain ⟨normalized, hcursor, h⟩ := Option.bind_eq_some_iff.mp h
  obtain ⟨shown, hshown, h⟩ := Option.bind_eq_some_iff.mp h
  obtain ⟨rfl, rfl⟩ := Prod.mk.inj (Option.some.inj h)
  have hle := add_eq_of_checkedSub hcursor
  have hlast : s.cursor < first + width / 3 := by
    unfold scrollHex at hscroll
    split at hscroll
    · obtain ⟨c, hc, hsucc⟩ := Option.map_eq_some_iff.mp hscroll
      have := add_eq_of_checkedSub hc
      omega
    · have := Option.some.inj hscroll
      omega
  have hlen : shown.length = min s.pattern.pieces.length (first + width / 3) - first := by
    obtain ⟨-, -, rfl⟩ := of_checkedSlice hshown
    rw [List.length_drop, List.length_take]
    omega
  rw [cellsText_append, List.length_append, length_drawHexPieces, length_endMarker,
    show (hexEnd.flatMap fun span ↦ span.text.toList).length = 3 from rfl, hlen]
  split <;> omega

/-- In ascii the end marker takes a column that the pieces do not get. -/
theorem length_renderAscii (h : s.renderAscii width start = some (col, cells)) :
    (cellsText cells).length ≤ width := by
  obtain ⟨room, hroom, h⟩ := Option.bind_eq_some_iff.mp h
  obtain ⟨shown, hshown, h⟩ := Option.bind_eq_some_iff.mp h
  obtain ⟨count, -, h⟩ := Option.bind_eq_some_iff.mp h
  obtain ⟨before, -, h⟩ := Option.bind_eq_some_iff.mp h
  obtain ⟨⟨first, lengths⟩, hscroll, h⟩ := Option.bind_eq_some_iff.mp h
  obtain ⟨normalized, -, h⟩ := Option.bind_eq_some_iff.mp h
  obtain ⟨drawn, hdrawn, h⟩ := Option.bind_eq_some_iff.mp h
  obtain ⟨-, rfl⟩ := Prod.mk.inj (Option.some.inj h)
  have hslice {α : Type} {xs ys : List α} {n : Nat} (h : checkedSlice xs n xs.length = some ys) :
      ys = xs.drop n := by
    obtain ⟨-, -, rfl⟩ := of_checkedSlice h
    rw [List.take_length]
  have hwidth := add_eq_of_checkedSub hroom
  -- the lengths are those of the pieces that are drawn
  obtain ⟨d, hfirst, hlengths⟩ : ∃ d, first = start + d ∧
      lengths = (shown.map PatternPiece.asciiLength).drop d := by
    unfold scrollAscii at hscroll
    split at hscroll
    · obtain ⟨d, -, hscroll⟩ := Option.bind_eq_some_iff.mp hscroll
      obtain ⟨rest, hrest, hscroll⟩ := Option.bind_eq_some_iff.mp hscroll
      obtain ⟨rfl, rfl⟩ := Prod.mk.inj (Option.some.inj hscroll)
      exact ⟨d, rfl, hslice hrest⟩
    · obtain ⟨rfl, rfl⟩ := Prod.mk.inj (Option.some.inj hscroll)
      exact ⟨0, rfl, rfl⟩
  have hzip : drawn.zip lengths = drawn.map fun p ↦ (p, p.asciiLength) := by
    rw [hslice hdrawn, hlengths, hslice hshown, hfirst, ← List.map_drop, List.drop_drop,
      List.map_prod_left_eq_zip]
  have hpieces := length_drawPieces first normalized 0 room drawn
  rw [hzip, cellsText_append, List.length_append, length_endMarker,
    show (asciiEnd.flatMap fun span ↦ span.text.toList).length = 1 from rfl]
  omega

/-- A search prompt is no longer than its line. -/
theorem length_text_le {last : Nat} {line : PromptLine}
    (h : s.renderWithSize width last = some line) : line.text.length ≤ width := by
  obtain ⟨room, hroom, h⟩ := Option.bind_eq_some_iff.mp h
  obtain ⟨⟨col, cells⟩, hpieces, h⟩ := Option.bind_eq_some_iff.mp h
  obtain rfl := Option.some.inj h
  have hwidth : room + 7 = width := add_eq_of_checkedSub hroom
  have hcells : (cellsText cells).length ≤ room := by
    unfold renderPieces at hpieces
    split at hpieces
    · exact length_renderHex hpieces
    · exact length_renderAscii hpieces
  have hlabel : (Span.on "search:" .white .blue).text.toList.length = 7 := rfl
  have htext : (PromptLine.text ⟨col, .on "search:" .white .blue, cells⟩).length =
      7 + (cellsText cells).length := by
    rw [PromptLine.text, List.length_append, hlabel, cellsText]
  omega

end Search

/-! ## The command prompt -/

namespace Command

private theorem length_le_byteLen (text : List Char) : text.length ≤ byteLen text := by
  induction text with
  | nil => exact Nat.zero_le _
  | cons c text ih =>
    have := c.utf8Size_pos
    rw [byteLen_cons, List.length_cons]
    omega

private theorem byteLen_append (text text' : List Char) :
    byteLen (text ++ text') = byteLen text + byteLen text' := by
  rw [byteLen, List.map_append, List.sum_append_nat, byteLen, byteLen]

private theorem splitAtByte_eq_some {text before behind : List Char} {n : Nat}
    (h : splitAtByte text n = some (before, behind)) :
    text = before ++ behind ∧ byteLen before = n := by
  induction text, n using splitAtByte.induct generalizing before with
  | case1 text =>
    rw [splitAtByte] at h
    obtain ⟨rfl, rfl⟩ := Prod.mk.inj (Option.some.inj h)
    exact ⟨rfl, rfl⟩
  | case2 => cases h
  | case3 c text n hle ih =>
    rw [splitAtByte, if_pos hle] at h
    obtain ⟨⟨before', behind'⟩, hsplit, h⟩ := Option.map_eq_some_iff.mp h
    obtain ⟨rfl, rfl⟩ := Prod.mk.inj h
    obtain ⟨rfl, hlen⟩ := ih hsplit
    exact ⟨rfl, by rw [byteLen_cons, hlen]; omega⟩
  | case4 c text n hgt =>
    rw [splitAtByte, if_neg hgt] at h
    cases h

/-- A command prompt is no longer than its line. -/
theorem length_text_le {m : Command} {width last : Nat} {line : PromptLine}
    (h : m.renderWithSize width last = some line) : line.text.length ≤ width := by
  obtain ⟨room, hroom, h⟩ := Option.bind_eq_some_iff.mp h
  obtain ⟨rest, hrest, h⟩ := Option.bind_eq_some_iff.mp h
  obtain ⟨required, -, h⟩ := Option.bind_eq_some_iff.mp h
  obtain ⟨shown, hshown, h⟩ := Option.bind_eq_some_iff.mp h
  obtain rfl := Option.some.inj h
  obtain ⟨⟨front, behind⟩, hfront, hshown⟩ := Option.bind_eq_some_iff.mp hshown
  obtain ⟨⟨before, shown'⟩, hsplit, hshown⟩ := Option.bind_eq_some_iff.mp hshown
  obtain rfl := Option.some.inj hshown
  obtain ⟨-, hstop⟩ := splitAtByte_eq_some hfront
  obtain ⟨hparts, hstart⟩ := splitAtByte_eq_some hsplit
  rw [hparts, byteLen_append, hstart] at hstop
  have hwidth := add_eq_of_checkedSub hroom
  have hroom := add_eq_of_checkedSub hrest
  have htext := length_le_byteLen shown'
  have hmarker : ((m.endMarker.flatMap PromptCell.spans).flatMap fun span ↦
      span.text.toList).length = if m.cursor = byteLen m.command then 1 else 0 := by
    unfold endMarker
    split <;> rfl
  simp only [PromptLine.text, List.flatMap_cons, List.flatMap_append, List.flatMap_nil,
    List.length_append, List.append_nil, hmarker, Span.plain, String.toList_ofList]
  rw [show (Span.on ":" .white .blue).text.toList.length = 1 from rfl]
  omega

end Command

end Tofu
