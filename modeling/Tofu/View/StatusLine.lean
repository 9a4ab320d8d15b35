import Tofu.View.PromptWidth

/-!
# The status line

`src/src/hex_view/view.rs:1050–1195`, with the names of the modes
(`fn name` of `src/src/modes/*.rs`) and of the counts (`src/src/cmd_count.rs:126–139`). The
name of the buffer, the mode, the selections and the position stand at the right edge; a
message or a prompt stands at the left. The column they start in is computed from the
lengths of the texts, in bytes, before the texts are printed.

`PrintStyledContent` sets the colours that it is given and resets them behind the text.
-/

namespace Tofu

open Rope

variable {X : XiRope UInt8}

/-! ## Names -/

/-- `format!("{:x}", n)`. -/
def hexNumber (n : Nat) : String := String.ofList (Nat.toDigits 16 n)

/-- `cmd_count.rs:126–139`. -/
def CmdCount.State.display : CmdCount.State → String
  | .none => ""
  | .some true 0 => " (0x)"
  | .some true count => " (0x" ++ hexNumber count ++ ")"
  | .some false count => " (" ++ toString count ++ ")"

/-- `normal.rs:109–111`. -/
def Normal.name (m : Normal) : String := "NORMAL" ++ m.countState.display

/-- `jumpto.rs:40–46`. -/
def JumpTo.name (m : JumpTo) : String := if m.extend then "EXTEND" else "JUMP"

/-- `split.rs:100–102`. -/
def Split.name (m : Split) : String := "SPLIT" ++ m.countState.display

/-- `collapse.rs:50–52` and the above. -/
def SearchAcceptor.name : SearchAcceptor → String
  | .split m => m.name
  | .collapse => "COLLAPSE"

/-- `insert.rs:133–142`. -/
def Insert.name (m : Insert) : String :=
  match m.mode, m.hex with
  | .insert, true => "INSERT (hex)"
  | .insert, false => "INSERT (ascii)"
  | .append, true => "APPEND (hex)"
  | .append, false => "APPEND (ascii)"
  | .overwrite, true => "OVERWRITE (hex)"
  | .overwrite, false => "OVERWRITE (ascii)"

/-- `replace.rs:39–45`. -/
def Replace.name (m : Replace) : String :=
  match m.hex, m.hexHalf with
  | true, none => "REPLACE (hex)"
  | false, _ => "REPLACE (ascii)"
  | true, some ch => "REPLACE (hex: " ++ hexText (ch >>> 4) ++ "...)"

/-- `Mode::name` of each mode. -/
def Mode.name : Mode → String
  | .normal m => m.name
  | .jumpTo m => m.name
  | .split m => m.name
  | .search m => m.next.name
  | .insert m => m.name
  | .replace m => m.name
  | .command _ => "COMMAND"
  | .quitting => "QUITTING"

/-- `current_buffer.rs:151–157`. -/
def CurrentBuffer.name (b : CurrentBuffer X) : String :=
  match b.path with
  | some path => String.ofList path
  | none => "*scratch*"

/-! ## Drawing -/

/-- A text in the colours that are set. -/
def printStyled (text : String) (foreground background : Option Color) : List TermOp :=
  (background.map DisplayOp.setBackgroundColor).toList ++
    (foreground.map DisplayOp.setForegroundColor).toList ++ [.print text] ++
    (background.map fun _ ↦ DisplayOp.setBackgroundColor Color.reset).toList ++
    (foreground.map fun _ ↦ DisplayOp.setForegroundColor Color.reset).toList

/-- What is queued for a piece of text. -/
def Span.ops (span : Span) : List TermOp :=
  printStyled span.text span.foreground span.background

/-- What is queued for a prompt: its label, and the spans of its cells. -/
def PromptLine.ops (line : PromptLine) : List TermOp :=
  line.label.ops ++ (line.cells.flatMap PromptCell.spans).flatMap Span.ops

/-- `LEFTARROW`, `view.rs:51`. -/
def leftArrow : String := String.ofList [Char.ofNat 0xE0B2]

/-- The difference of two numbers of sixteen bits, the second one truncated to them. -/
def u16Sub (a b : Nat) : Nat := (a + 0x10000 - b % 0x10000) % 0x10000

/-- `view.rs:1061–1067` and `1112–1117`. -/
def CurrentBuffer.selectionsText (b : CurrentBuffer X) : String :=
  " " ++ toString b.selection.regions.length ++ " sels (" ++
    toString (b.selection.mainSelection + 1) ++ ") "

/-- `view.rs:1069–1078` and `1121–1145`. -/
def CurrentBuffer.positionText (b : CurrentBuffer X) : Option String :=
  if b.data = [] then some " empty "
  else b.selection.main.map fun main ↦
    " " ++ hexNumber main.caret ++ "/" ++ hexNumber (b.data.length - 1) ++ " "

namespace HexView

/-- `view.rs:1050–1080`. -/
def calculatePowerlineLength (v : HexView X) : Option Nat := do
  let b ← v.current
  let position ← b.positionText
  let length := 1
  let length := length + (2 + b.name.utf8ByteSize)
  let length := if b.dirty then length + 3 else length
  let length := length + 1
  let length := length + (2 + v.mode.name.utf8ByteSize)
  let length := length + 1
  let length := length + b.selectionsText.utf8ByteSize
  let length := length + 1
  some (length + position.utf8ByteSize)

/-- `view.rs:1081–1152`. -/
def drawStatuslineHere (v : HexView X) : Option (List TermOp) := do
  let b ← v.current
  let position ← b.positionText
  let name := " " ++ b.name ++ (if b.dirty then "[+]" else "") ++ " "
  some (printStyled leftArrow (some .red) none ++ printStyled name (some .white) (some .red) ++
    printStyled leftArrow (some .darkYellow) (some .red) ++
    printStyled (" " ++ v.mode.name ++ " ") (some (.ansiValue 16)) (some .darkYellow) ++
    printStyled leftArrow (some .white) (some .darkYellow) ++
    printStyled b.selectionsText (some (.ansiValue 16)) (some .white) ++
    printStyled leftArrow (some .blue) (some .white) ++
    printStyled position (some .white) (some .blue))

/-- Where the line at the right starts, and what comes before it: `view.rs:1154–1176`. -/
def openStatusline (v : HexView X) (lineLength : Nat) : List TermOp :=
  match v.info with
  | some info =>
    [.moveTo 0 (v.size.2 - 1), .clearCurrentLine] ++
      printStyled info (some .white) (some .blue) ++
      [.moveTo (u16Sub v.size.1 lineLength) v.size.2]
  | none => [.moveTo (u16Sub v.size.1 lineLength) v.size.2, .clearCurrentLine]

/-- The prompt of the mode, if it has one, `view.rs:1178–1192`. -/
def drawPrompt (v : HexView X) (prevCol : Nat) : Option (List TermOp × Nat) :=
  let line (line : PromptLine) := (DisplayOp.moveTo 0 v.size.2 :: line.ops, line.startColumn)
  match v.mode with
  | .search m => (m.renderWithSize v.size.1 prevCol).map line
  | .command m => (m.renderWithSize v.size.1 prevCol).map line
  | _ => some ([], prevCol)

/-- `view.rs:1154–1195`: what is queued, and the column kept for the next prompt. -/
def drawStatusline (v : HexView X) (prevCol : Nat) : Option (List TermOp × Nat) := do
  let lineLength ← v.calculatePowerlineLength
  let line ← v.drawStatuslineHere
  let (prompt, newCol) ← v.drawPrompt prevCol
  some (v.openStatusline lineLength ++ line ++ prompt, newCol)

end HexView

/-! ## Lengths -/

section Lengths

open Command (Ascii)

instance (text : List Char) : Decidable (Ascii text) :=
  List.decidableBAll (fun c : Char ↦ c.utf8Size = 1) text

private theorem utf8ByteSize_eq (s : String) : s.utf8ByteSize = String.utf8Len s.toList := by
  rw [← String.utf8ByteSize_ofList, String.ofList_toList]

private theorem utf8Len_eq_length_iff {text : List Char} :
    String.utf8Len text = text.length ↔ Ascii text := by
  refine ⟨fun h ↦ ?_, utf8Len_eq_length⟩
  induction text with
  | nil => exact List.forall_mem_nil _
  | cons c text ih =>
    have hpos := c.utf8Size_pos
    have hle := length_le_utf8Len text
    rw [String.utf8Len_cons, List.length_cons] at h
    exact List.forall_mem_cons.mpr ⟨by omega, ih (by omega)⟩

/-- A text of one-byte characters takes as many columns as bytes. -/
theorem utf8ByteSize_of_ascii {s : String} (h : Ascii s.toList) :
    s.utf8ByteSize = s.toList.length := by
  rw [utf8ByteSize_eq, utf8Len_eq_length h]

private theorem ascii_append {s t : String} (hs : Ascii s.toList) (ht : Ascii t.toList) :
    Ascii (s ++ t).toList := by
  rw [String.toList_append]
  exact hs.append ht

private theorem ascii_hexNumber (n : Nat) : Ascii (hexNumber n).toList := by
  rw [hexNumber, String.toList_ofList]
  exact fun c ↦ utf8Size_of_mem_toDigits (by decide) (by decide)

private theorem ascii_toString (n : Nat) : Ascii (toString n).toList := by
  rw [Nat.toString_eq_ofList_toDigits, String.toList_ofList]
  exact fun c ↦ utf8Size_of_mem_toDigits (by decide) (by decide)

private theorem ascii_countDisplay (state : CmdCount.State) : Ascii state.display.toList := by
  unfold CmdCount.State.display
  split
  · decide
  · decide
  · exact ascii_append (ascii_append (by decide) (ascii_hexNumber _)) (by decide)
  · exact ascii_append (ascii_append (by decide) (ascii_toString _)) (by decide)

private theorem ascii_modeName (mode : Mode) : Ascii mode.name.toList := by
  have hsplit (m : Split) : Ascii m.name.toList := ascii_append (by decide) (ascii_countDisplay _)
  cases mode with
  | normal m => exact ascii_append (by decide) (ascii_countDisplay _)
  | jumpTo m =>
    simp only [Mode.name, JumpTo.name]
    split <;> decide
  | split m => exact hsplit m
  | search m =>
    simp only [Mode.name, SearchAcceptor.name]
    split
    · exact hsplit _
    · decide
  | insert m =>
    simp only [Mode.name, Insert.name]
    split <;> decide
  | replace m =>
    simp only [Mode.name, Replace.name]
    split
    · decide
    · decide
    · refine ascii_append (ascii_append (by decide) ?_) (by decide)
      rw [hexText, String.toList_ofList]
      exact fun c ↦ utf8Size_of_mem_toDigits (by decide) (by decide)
  | command m => exact (by decide : Ascii "COMMAND".toList)
  | quitting => decide

private theorem ascii_selectionsText (b : CurrentBuffer X) : Ascii b.selectionsText.toList :=
  ascii_append (ascii_append (ascii_append (ascii_append (by decide) (ascii_toString _))
    (by decide)) (ascii_toString _)) (by decide)

private theorem ascii_positionText {b : CurrentBuffer X} {position : String}
    (h : b.positionText = some position) : Ascii position.toList := by
  unfold CurrentBuffer.positionText at h
  split at h
  · obtain rfl := Option.some.inj h
    decide
  · obtain ⟨main, -, rfl⟩ := Option.map_eq_some_iff.mp h
    exact ascii_append (ascii_append (ascii_append (ascii_append (by decide) (ascii_hexNumber _))
      (by decide)) (ascii_hexNumber _)) (by decide)

private theorem textOf_printStyled (text : String) (foreground background : Option Color) :
    textOf (printStyled text foreground background) = text.toList := by
  cases foreground <;> cases background <;> simp [printStyled, textOf]

namespace HexView

variable {v : HexView X} {b : CurrentBuffer X} {n : Nat} {ops : List TermOp}

/-- The computed length is that of what is printed, but for the bytes of the name that take no
column. -/
theorem length_drawStatuslineHere (hb : v.current = some b)
    (hn : v.calculatePowerlineLength = some n) (hops : v.drawStatuslineHere = some ops) :
    (textOf ops).length + b.name.utf8ByteSize = n + b.name.toList.length := by
  rw [calculatePowerlineLength, hb, Option.bind_eq_bind, Option.bind_some] at hn
  rw [drawStatuslineHere, hb, Option.bind_eq_bind, Option.bind_some] at hops
  obtain ⟨position, hposition, hn⟩ := Option.bind_eq_some_iff.mp hn
  rw [hposition, Option.bind_eq_bind, Option.bind_some] at hops
  obtain rfl := Option.some.inj hn
  obtain rfl := Option.some.inj hops
  rw [utf8ByteSize_of_ascii (ascii_modeName v.mode),
    utf8ByteSize_of_ascii (ascii_selectionsText b),
    utf8ByteSize_of_ascii (ascii_positionText hposition)]
  simp only [textOf_append, textOf_printStyled, String.toList_append, List.length_append]
  have harrow : leftArrow.toList.length = 1 := rfl
  have hblank : " ".toList.length = 1 := rfl
  cases b.dirty <;> simp [harrow] <;> omega

/-- The columns of the line at the right beside those of the position. -/
def statusColumns (v : HexView X) (b : CurrentBuffer X) : Nat :=
  8 + b.name.utf8ByteSize + (if b.dirty then 3 else 0) + v.mode.name.utf8ByteSize +
    b.selectionsText.utf8ByteSize

private theorem length_hexNumber {m : Nat} (h : m < 2 ^ 64) :
    (hexNumber m).toList.length ≤ 16 := by
  rw [hexNumber, String.toList_ofList]
  exact (Nat.length_toDigits_le_iff (by decide) (by decide)).mpr h

private theorem length_positionText {position : String} (h : b.positionText = some position)
    (hcaret : ∀ main ∈ b.selection.main, main.caret < 2 ^ 64) (hlen : b.data.length < 2 ^ 64) :
    position.toList.length ≤ 35 := by
  unfold CurrentBuffer.positionText at h
  split at h
  · obtain rfl := Option.some.inj h
    decide
  · obtain ⟨main, hmain, rfl⟩ := Option.map_eq_some_iff.mp h
    have hfirst := length_hexNumber (hcaret main hmain)
    have hsecond := length_hexNumber (show b.data.length - 1 < 2 ^ 64 by omega)
    simp only [String.toList_append, List.length_append]
    have hblank : " ".toList.length = 1 := rfl
    have hslash : "/".toList.length = 1 := rfl
    omega

/-- The length that is computed is not greater than that for the longest position. -/
theorem calculatePowerlineLength_le (hb : v.current = some b)
    (hn : v.calculatePowerlineLength = some n)
    (hcaret : ∀ main ∈ b.selection.main, main.caret < 2 ^ 64) (hlen : b.data.length < 2 ^ 64) :
    n ≤ v.statusColumns b + 35 := by
  rw [calculatePowerlineLength, hb, Option.bind_eq_bind, Option.bind_some] at hn
  obtain ⟨position, hposition, hn⟩ := Option.bind_eq_some_iff.mp hn
  obtain rfl := Option.some.inj hn
  have := length_positionText hposition hcaret hlen
  rw [utf8ByteSize_of_ascii (ascii_positionText hposition), statusColumns]
  cases b.dirty <;> simp <;> omega

end HexView

end Lengths

/-! ## Nothing above the last row changes -/

/-- The line at the right fits on the screen, whatever the position is, and so does a message.
The width of a terminal has sixteen bits. -/
structure HexView.StatusFits (v : HexView X) : Prop where
  word : v.size.1 < 0x10000
  line : ∀ b ∈ v.current, v.statusColumns b + 35 ≤ v.size.1
  info : ∀ info ∈ v.info, info.toList.length ≤ v.size.1

instance (v : HexView X) : Decidable v.StatusFits :=
  decidable_of_iff (v.size.1 < 0x10000 ∧ (∀ b ∈ v.current, v.statusColumns b + 35 ≤ v.size.1) ∧
      ∀ info ∈ v.info, info.toList.length ≤ v.size.1)
    ⟨fun h ↦ ⟨h.1, h.2.1, h.2.2⟩, fun h ↦ ⟨h.word, h.line, h.info⟩⟩

section LastRow

/-- The operations stay on the last row of a screen of this size and leave the background they
found. -/
structure OnStatusLine (size : Nat × Nat) (ops : List TermOp) : Prop where
  keeps : KeepsAbove size.1 size.2 ops
  background : RestoresBackground Color.reset ops

variable {size : Nat × Nat} {ops ops' : List TermOp}

private theorem OnStatusLine.append (h : OnStatusLine size ops) (h' : OnStatusLine size ops') :
    OnStatusLine size (ops ++ ops') :=
  ⟨h.keeps.append h'.keeps, h.background.append h'.background⟩

/-- Text in any colours that are reset behind it. -/
structure Styled (ops : List TermOp) : Prop where
  inline : ∀ op ∈ ops, op.inline
  background : RestoresBackground Color.reset ops

private theorem Styled.append (h : Styled ops) (h' : Styled ops') : Styled (ops ++ ops') :=
  ⟨List.forall_mem_append.mpr ⟨h.inline, h'.inline⟩, h.background.append h'.background⟩

private theorem styled_printStyled (text : String) (foreground background : Option Color) :
    Styled (printStyled text foreground background) := by
  constructor
  · intro op hop
    cases foreground <;> cases background <;>
      simp [printStyled] at hop <;> rcases hop with rfl | rfl | rfl | rfl | rfl <;> rfl
  · intro brush hb
    cases foreground <;> cases background <;> simp [printStyled, Brush.apply, hb]

private theorem styled_flatMap_spans (spans : List Span) : Styled (spans.flatMap Span.ops) := by
  induction spans with
  | nil => exact ⟨by simp, .nil _⟩
  | cons span spans ih => exact (styled_printStyled ..).append ih

/-- Text that fits, from a column of the last row on. -/
theorem Styled.onStatusLine (h : Styled ops) {column row : Nat} (hrow : size.2 ≤ row + 1)
    (hfit : min column (size.1 - 1) + (textOf ops).length ≤ size.1) (clears : Bool) :
    OnStatusLine size
      (.moveTo column row :: ((if clears then [.clearCurrentLine] else []) ++ ops)) := by
  refine ⟨keepsAbove_moveTo hrow h.inline hfit clears, fun brush hb ↦ ?_⟩
  cases clears <;> exact h.background brush hb

private theorem PromptLine.textOf_ops (line : PromptLine) : textOf line.ops = line.text := by
  simp only [ops, Span.ops, textOf_append, textOf_printStyled, textOf_flatMap, text]

namespace HexView

variable {v : HexView X} {b : CurrentBuffer X} {col col' : Nat}

private theorem styled_drawStatuslineHere (h : v.drawStatuslineHere = some ops) : Styled ops := by
  obtain ⟨b, -, h⟩ := Option.bind_eq_some_iff.mp h
  obtain ⟨position, -, h⟩ := Option.bind_eq_some_iff.mp h
  obtain rfl := Option.some.inj h
  have hstyled := styled_printStyled
  exact (((((((hstyled ..).append (hstyled ..)).append (hstyled ..)).append (hstyled ..)).append
    (hstyled ..)).append (hstyled ..)).append (hstyled ..)).append (hstyled ..)

/-- A prompt is no longer than the line. -/
theorem onStatusLine_drawPrompt (h : v.drawPrompt col = some (ops, col')) :
    OnStatusLine v.size ops := by
  have hline {o : Option PromptLine} (hlen : ∀ line, o = some line → line.text.length ≤ v.size.1)
      (h : o.map (fun line ↦ (DisplayOp.moveTo 0 v.size.2 :: line.ops, line.startColumn)) =
        some (ops, col')) : OnStatusLine v.size ops := by
    obtain ⟨line, hline, h⟩ := Option.map_eq_some_iff.mp h
    obtain ⟨rfl, -⟩ := Prod.mk.inj h
    have hfit : min 0 (v.size.1 - 1) + (textOf line.ops).length ≤ v.size.1 := by
      rw [line.textOf_ops, Nat.zero_min, Nat.zero_add]
      exact hlen line hline
    exact Styled.onStatusLine ((styled_printStyled ..).append (styled_flatMap_spans _))
      (Nat.le_succ _) hfit false
  unfold drawPrompt at h
  split at h
  · exact hline (fun _ ↦ Search.length_text_le) h
  · exact hline (fun _ ↦ Command.length_text_le) h
  · obtain ⟨rfl, -⟩ := Prod.mk.inj (Option.some.inj h)
    exact ⟨.nil _ _, .nil _⟩

/-- Drawing a status line that fits changes the last row only. -/
theorem StatusFits.onStatusLine (hfits : v.StatusFits) (hb : v.current = some b)
    (hcaret : ∀ main ∈ b.selection.main, main.caret < 2 ^ 64) (hlen : b.data.length < 2 ^ 64)
    (h : v.drawStatusline col = some (ops, col')) : OnStatusLine v.size ops := by
  have hword := hfits.word
  obtain ⟨n, hn, h⟩ := Option.bind_eq_some_iff.mp h
  obtain ⟨line, hline, h⟩ := Option.bind_eq_some_iff.mp h
  obtain ⟨⟨prompt, newCol⟩, hprompt, h⟩ := Option.bind_eq_some_iff.mp h
  obtain ⟨rfl, -⟩ := Prod.mk.inj (Option.some.inj h)
  refine OnStatusLine.append ?_ (onStatusLine_drawPrompt hprompt)
  have hcolumns := calculatePowerlineLength_le hb hn hcaret hlen
  have hwidth := hfits.line b hb
  have htext := length_drawStatuslineHere hb hn hline
  have hbytes := length_le_utf8Len b.name.toList
  rw [← utf8ByteSize_eq] at hbytes
  have hstyled := styled_drawStatuslineHere hline
  have hcolumn : u16Sub v.size.1 n = v.size.1 - n := by
    unfold u16Sub
    omega
  have hfit : min (u16Sub v.size.1 n) (v.size.1 - 1) + (textOf line).length ≤ v.size.1 := by
    omega
  unfold openStatusline
  split
  · next info hinfo =>
    have hmessage : min 0 (v.size.1 - 1) +
        (textOf (printStyled info (some .white) (some .blue))).length ≤ v.size.1 := by
      rw [textOf_printStyled, Nat.zero_min, Nat.zero_add]
      exact hfits.info info hinfo
    rw [List.append_assoc]
    exact ((styled_printStyled ..).onStatusLine (by omega) hmessage true).append
      (hstyled.onStatusLine (Nat.le_succ _) hfit false)
  · exact hstyled.onStatusLine (Nat.le_succ _) hfit true

end HexView

end LastRow

/-! ## The right edge -/

section Flush

open Command (Ascii)

namespace HexView

variable {v : HexView X} {b : CurrentBuffer X} {n : Nat} {ops : List TermOp}

/-- Where it fits, the line at the right ends in the last column of the terminal exactly when the
name of the buffer has characters of one byte only. -/
theorem statusline_flush_iff (hb : v.current = some b)
    (hn : v.calculatePowerlineLength = some n) (hops : v.drawStatuslineHere = some ops)
    (hfit : n ≤ v.size.1) (hword : v.size.1 < 0x10000) :
    u16Sub v.size.1 n + (textOf ops).length = v.size.1 ↔ ∀ path ∈ b.path, Ascii path := by
  have hlength := length_drawStatuslineHere hb hn hops
  have hname : b.name.utf8ByteSize = b.name.toList.length ↔ ∀ path ∈ b.path, Ascii path := by
    rw [utf8ByteSize_eq, utf8Len_eq_length_iff, CurrentBuffer.name]
    cases b.path with
    | none => exact iff_of_true (by decide) (by simp)
    | some path => simp [String.toList_ofList]
  have hcolumn : u16Sub v.size.1 n = v.size.1 - n := by
    unfold u16Sub
    omega
  rw [hcolumn, ← hname]
  omega

-- Three bytes of a file with a short name.
private def shortName : HexView (XiRope.reference UInt8) :=
  .withBuffrCollection (.withCurrentBuffer (.fromDataAndPath [1, 2, 3] (some ['f']))) (80, 24)

/-- A short name leaves room on eighty columns. -/
theorem statusline_flush_shortName :
    ∃ n ops, shortName.calculatePowerlineLength = some n ∧
      shortName.drawStatuslineHere = some ops ∧ n ≤ 80 ∧
        u16Sub 80 n + (textOf ops).length = 80 := by
  obtain ⟨n, hn⟩ : ∃ n, shortName.calculatePowerlineLength = some n := ⟨_, rfl⟩
  obtain ⟨ops, hops⟩ : ∃ ops, shortName.drawStatuslineHere = some ops := ⟨_, rfl⟩
  have hfit : n ≤ 80 := by
    obtain rfl := Option.some.inj hn
    decide
  refine ⟨n, ops, hn, hops, hfit, (statusline_flush_iff rfl hn hops hfit (by decide)).mpr ?_⟩
  intro path hpath
  obtain rfl := Option.some.inj hpath
  decide

end HexView

end Flush

end Tofu
