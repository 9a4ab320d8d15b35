import Tofu.Modes.Prompt
import Tofu.View.SearchLine

/-!
# The command prompt on the status line

`src/src/hex_view/view.rs:317–370` and `1178–1192`. The prompt shows a stretch of the
command that starts at a column kept from draw to draw, with a marker behind it when the
cursor is at its end. Columns are byte offsets into the command, so that a slice may start
or end inside a character and panic.

As for the search prompt, a subtraction that would underflow and a slice that panics are
`none`.
-/

namespace Tofu

open Rope

variable {X : XiRope UInt8}

/-- The text of the line, without its colours. -/
def PromptLine.text (line : PromptLine) : List Char :=
  line.label.text.toList ++
    (line.cells.flatMap PromptCell.spans).flatMap fun span ↦ span.text.toList

namespace Command

/-- `&text[start..stop]`. -/
def sliceBytes (text : List Char) (start stop : Nat) : Option (List Char) := do
  let (front, _) ← splitAtByte text stop
  let (_, shown) ← splitAtByte front start
  some shown

/-- `view.rs:334–338`: the start column, brought back to the command or to the cursor. -/
def clampColumn (m : Command) (lastStartCol : Nat) : Nat :=
  if byteLen m.command ≤ lastStartCol then max 1 (byteLen m.command) - 1
  else if m.cursor < lastStartCol then m.cursor
  else lastStartCol

/-- The start column from which what stands before the cursor fits, `view.rs:342–345`. -/
def scrollColumn (requiredLength maxWidth startColumn : Nat) : Nat :=
  if requiredLength > maxWidth then startColumn + (requiredLength - maxWidth) else startColumn

/-- The marker, if the cursor is behind the command, `view.rs:355–364`. -/
def endMarker (m : Command) : List PromptCell :=
  if m.cursor = byteLen m.command then
    [{ position := byteLen m.command, spans := Tofu.asciiEnd }]
  else []

/-- `view.rs:318–368`. -/
def renderWithSize (m : Command) (maxWidth lastStartCol : Nat) : Option PromptLine := do
  let label := Span.on ":" .white .blue
  let maxWidth ← checkedSub maxWidth 1
  let startColumn := m.clampColumn lastStartCol
  let maxWidth ← checkedSub maxWidth (if m.cursor = byteLen m.command then 1 else 0)
  let requiredLength ← checkedSub m.cursor startColumn
  let startColumn := scrollColumn requiredLength maxWidth startColumn
  let shown ← sliceBytes m.command startColumn (min (byteLen m.command) (startColumn + maxWidth))
  let cell := { position := startColumn, spans := [.plain (String.ofList shown)] }
  some { startColumn, label, cells := cell :: m.endMarker }

/-- The prompt is drawn and takes a key; the column of the draw is kept for the next one,
`view.rs:1189–1191`. -/
def redraw (ws : Workspace X) (width : Nat) (key : PromptKey × Bool) (p : Command × Nat) :
    Option (Command × Nat) := do
  let line ← p.1.renderWithSize width p.2
  let m ← p.1.press ws key
  some (m, line.startColumn)

/-! ## One draw -/

private theorem Ascii.sliceBytes {text : List Char} (h : Ascii text) {start stop : Nat}
    (hle : start ≤ stop) (hstop : stop ≤ text.length) :
    sliceBytes text start stop = some ((text.take stop).drop start) := by
  have hstart : start ≤ (text.take stop).length := by
    rw [List.length_take, Nat.min_eq_left hstop]
    exact hle
  simp only [Command.sliceBytes, h.splitAtByte hstop, Option.bind_eq_bind, Option.bind_some,
    (h.take stop).splitAtByte hstart]

/-- The draw shows the command from a column at or before the cursor on, at least up to the
cursor, and nothing is wider than the line. -/
def Shown (width : Nat) (p : Command × Nat) : Prop :=
  ∃ line stop, p.1.renderWithSize width p.2 = some line ∧
    line.startColumn ≤ p.1.cursor ∧ p.1.cursor ≤ stop ∧
    line.text = ':' :: (p.1.command.take stop).drop line.startColumn ++
      (if p.1.cursor = p.1.command.length then [' '] else []) ∧
    line.text.length ≤ width

/-- The text is plain, and the column is left by another prompt or is that of the last draw, one
behind the cursor at most. -/
structure Drawable (p : Command × Nat) : Prop where
  plain : p.1.Plain
  column_le : p.1.command = [] ∨ p.2 ≤ p.1.cursor + 1

variable {width : Nat} {p : Command × Nat}

private theorem Drawable.clampColumn_le (h : Drawable p) : p.1.clampColumn p.2 ≤ p.1.cursor := by
  have hlen := h.plain.ascii.byteLen_eq
  unfold clampColumn
  rw [hlen]
  split
  · next hle =>
    rcases h.column_le with hnil | hcol
    · rw [hnil]
      exact Nat.zero_le _
    · omega
  · split <;> omega

private theorem scrollColumn_spec {cursor room start : Nat} (h : start ≤ cursor) :
    scrollColumn (cursor - start) room start ≤ cursor ∧
      cursor ≤ scrollColumn (cursor - start) room start + room := by
  unfold scrollColumn
  split <;> omega

/-- The columns that the marker takes. -/
def markerWidth (m : Command) : Nat := if m.cursor = byteLen m.command then 1 else 0

/-- What stands on the line for a start column and an end. -/
def lineFrom (m : Command) (start stop : Nat) : PromptLine :=
  { startColumn := start
    label := .on ":" .white .blue
    cells := { position := start
               spans := [.plain (.ofList ((m.command.take stop).drop start))] } :: m.endMarker }

private theorem Drawable.renderWithSize_eq (h : Drawable p) (hw : 2 ≤ width) :
    ∃ start stop, p.1.renderWithSize width p.2 = some (p.1.lineFrom start stop) ∧
      start ≤ p.1.cursor ∧ p.1.cursor ≤ stop ∧ stop ≤ p.1.command.length ∧
      1 + (stop - start) + p.1.markerWidth ≤ width := by
  have hlen := h.plain.ascii.byteLen_eq
  have hcursor := h.plain.cursor_le
  have hclamp := h.clampColumn_le
  have hmarker : p.1.markerWidth ≤ 1 := by
    unfold markerWidth
    split <;> omega
  -- what is left beside the label and the marker
  set room := width - 1 - p.1.markerWidth with hroom
  set start := scrollColumn (p.1.cursor - p.1.clampColumn p.2) room (p.1.clampColumn p.2)
  have hstart : start ≤ p.1.cursor ∧ p.1.cursor ≤ start + room := scrollColumn_spec hclamp
  have hslice := h.plain.ascii.sliceBytes
    (show start ≤ min p.1.command.length (start + room) by omega) (by omega)
  refine ⟨start, min p.1.command.length (start + room), ?_, hstart.1, by omega, by omega, by omega⟩
  rw [renderWithSize, checkedSub_of_le (by omega), Option.bind_eq_bind, Option.bind_some,
    ← markerWidth, checkedSub_of_le (by omega), Option.bind_some, checkedSub_of_le hclamp,
    Option.bind_some, ← hroom, hlen]
  exact Option.bind_eq_some_iff.mpr ⟨_, hslice, rfl⟩

private theorem text_lineFrom (m : Command) (start stop : Nat) :
    (m.lineFrom start stop).text = ':' :: (m.command.take stop).drop start ++
      if m.cursor = byteLen m.command then [' '] else [] := by
  simp only [PromptLine.text, lineFrom, endMarker, List.flatMap_cons]
  split <;> simp [Span.on, Span.plain, Tofu.asciiEnd]

private theorem Drawable.shown (h : Drawable p) (hw : 2 ≤ width) : Shown width p := by
  have hlen := h.plain.ascii.byteLen_eq
  obtain ⟨start, stop, hrender, hstart, hcursor, hstop, hwidth⟩ := h.renderWithSize_eq hw
  have htext := text_lineFrom p.1 start stop
  refine ⟨_, stop, hrender, hstart, hcursor, hlen ▸ htext, ?_⟩
  have hmarker : (if p.1.cursor = byteLen p.1.command then [' '] else []).length =
      p.1.markerWidth := by
    unfold markerWidth
    split <;> rfl
  rw [htext, List.length_append, List.length_cons, List.length_drop, List.length_take, hmarker]
  omega

/-! ## Runs -/

/-- A key moves the cursor back by one at most. -/
theorem cursor_le_press {ws : Workspace X} {key : PromptKey × Bool} {m m' : Command}
    (h : m.press ws key = some m') : m.cursor ≤ m'.cursor + 1 := by
  obtain ⟨key, shift⟩ := key
  cases key with
  | char c =>
    rw [press_char] at h
    obtain ⟨command, -, rfl⟩ := Option.map_eq_some_iff.mp h
    simp only
    omega
  | backspace =>
    rw [press_backspace] at h
    split at h
    · obtain ⟨command, -, rfl⟩ := Option.map_eq_some_iff.mp h
      simp only
      omega
    · obtain rfl := Option.some.inj h
      exact Nat.le_succ _
  | delete =>
    rw [press_delete] at h
    obtain ⟨command, -, rfl⟩ := Option.map_eq_some_iff.mp h
    exact Nat.le_succ _
  | left =>
    obtain rfl := Option.some.inj h
    simp only
    omega
  | right =>
    obtain rfl := Option.some.inj h
    simp only
    split <;> omega

private theorem Drawable.redraw {ws : Workspace X} {key : PromptKey × Bool} {p' : Command × Nat}
    (h : Drawable p) (hw : 2 ≤ width) (hs : KeySafe key p.1)
    (hr : Command.redraw ws width key p = some p') : Drawable p' := by
  obtain ⟨line, hline, hr⟩ := Option.bind_eq_some_iff.mp hr
  obtain ⟨m, hm, hr⟩ := Option.bind_eq_some_iff.mp hr
  obtain rfl := Option.some.inj hr
  obtain ⟨start, stop, hrender, hstart, -⟩ := h.renderWithSize_eq hw
  obtain rfl := Option.some.inj (hline.symm.trans hrender)
  obtain ⟨m', hm', hplain⟩ := h.plain.press ws hs
  obtain rfl := Option.some.inj (hm.symm.trans hm')
  exact ⟨hplain, .inr (Nat.le_trans hstart (cursor_le_press hm))⟩

/-- From the empty prompt and any column left over, on a line of at least two columns: keys
are taken and the prompt is drawn before and after each of them, without a panic, with the
cursor between characters, the text before it shown and nothing wider than the line, exactly
while every character typed is one byte long and Delete is pressed before the end. -/
theorem prompt_shown_iff (ws : Workspace X) (hw : 2 ≤ width) (col : Nat)
    (keys : List (PromptKey × Bool)) :
    Along (redraw ws width) (fun key p ↦ KeySafe key p.1) keys (Command.new, col) ↔
      (runSteps (redraw ws width) keys (Command.new, col)).isSome ∧
        Always (redraw ws width) (fun p ↦ p.1.CursorOnText ∧ Shown width p) keys
          (Command.new, col) := by
  refine along_iff_survives (I := Drawable) ?_ ?_ ?_ ?_
  · exact ⟨⟨fun c hc ↦ by simp [Command.new] at hc, Nat.le_refl 0⟩, .inl rfl⟩
  · exact fun p h ↦ ⟨h.plain.cursorOnText, h.shown hw⟩
  · exact fun key p p' h hs hr ↦ h.redraw hw hs hr
  · intro key p h
    obtain ⟨line, stop, hline, -⟩ := h.shown hw
    have hredraw : Command.redraw ws width key p =
        (p.1.press ws key).map fun m ↦ (m, line.startColumn) := by
      rw [Command.redraw, hline, Option.bind_eq_bind, Option.bind_some]
      cases p.1.press ws key <;> rfl
    constructor
    · intro hs
      obtain ⟨m, hm, -⟩ := h.plain.press ws hs
      have hr : Command.redraw ws width key p = some (m, line.startColumn) := by
        rw [hredraw, hm, Option.map_some]
      have h' := h.redraw hw hs hr
      exact ⟨_, hr, h'.plain.cursorOnText, h'.shown hw⟩
    · rintro ⟨p', hr, hq, -⟩
      rw [hredraw] at hr
      obtain ⟨m, hm, rfl⟩ := Option.map_eq_some_iff.mp hr
      exact h.plain.keySafe hm hq

/-- A command that is longer than the line, with a column left by another prompt. -/
theorem prompt_shown_narrow :
    let ws : Workspace (XiRope.reference UInt8) := { fs := .single [] [], buffers := .new }
    let keys := [(.char 'w', false), (.char ' ', false), (.char 'f', false), (.backspace, false),
      (.left, false)]
    2 ≤ 3 ∧ (runSteps (redraw ws 3) keys (Command.new, 9)).isSome ∧
      Always (redraw ws 3) (fun p ↦ p.1.CursorOnText ∧ Shown 3 p) keys (Command.new, 9) :=
  ⟨by decide, (prompt_shown_iff _ (by decide) 9 _).mp (by decide)⟩

end Command

end Tofu
