import Tofu.Base.Display

/-!
# Styled bytes

`src/src/hex_view/mod.rs`. A styling command says which style to queue before a byte,
between its two hexadecimal digits and after it. The foreground of a byte is that of its
kind; its background is the command's, or what the cells before it left.
-/

namespace Tofu

/-- The colours in use, of those a terminal has. -/
inductive Color where
  | reset | black | darkGrey | red | darkRed | green | yellow | darkYellow | blue | darkMagenta
  | cyan | white
  | rgb (r g b : UInt8)
  | ansiValue (value : UInt8)
  deriving DecidableEq, Repr

/-- A style sets the colours it has and leaves the others. Text attributes are left out. -/
structure ContentStyle where
  foregroundColor : Option Color
  backgroundColor : Option Color
  deriving DecidableEq, Repr

/-- What the editor queues for the terminal. -/
abbrev TermOp := DisplayOp Color

/-- `hex_view/mod.rs:23–30`. -/
inductive Priority where
  | basic | mark | selection | cursor
  deriving DecidableEq, Repr

/-- `hex_view/mod.rs:32–37`. -/
structure PrioritizedStyle where
  style : ContentStyle
  priority : Priority
  deriving DecidableEq, Repr

/-- `hex_view/mod.rs:39–44`. -/
structure StylingCommand where
  start : Option PrioritizedStyle := none
  mid : Option PrioritizedStyle := none
  stop : Option PrioritizedStyle := none
  deriving DecidableEq, Repr

namespace StylingCommand

variable (cmd : StylingCommand)

/-- `hex_view/mod.rs:47–49`. -/
def startStyle : Option ContentStyle := cmd.start.map PrioritizedStyle.style

/-- `hex_view/mod.rs:51–53`. -/
def midStyle : Option ContentStyle := cmd.mid.map PrioritizedStyle.style

/-- `hex_view/mod.rs:55–57`. -/
def endStyle : Option ContentStyle := cmd.stop.map PrioritizedStyle.style

/-- `hex_view/mod.rs:59–65`. -/
def withStartStyle (style : PrioritizedStyle) : StylingCommand := { cmd with start := some style }

/-- `hex_view/mod.rs:67–75`. -/
def withMidToEnd : StylingCommand := { cmd with mid := none, stop := cmd.mid }

/-- `hex_view/mod.rs:77–85`. -/
def takeEndOnly : StylingCommand := { start := none, mid := none, stop := cmd.stop }

/-- `hex_view/mod.rs:87–93`. -/
def withMidStyle (style : PrioritizedStyle) : StylingCommand := { cmd with mid := some style }

/-- `hex_view/mod.rs:95–101`. -/
def withEndStyle (style : PrioritizedStyle) : StylingCommand := { cmd with stop := some style }

end StylingCommand

/-- `hex_view/mod.rs:104–118`. -/
def queueStyle (style : ContentStyle) : List TermOp :=
  (style.foregroundColor.map DisplayOp.setForegroundColor).toList ++
    (style.backgroundColor.map DisplayOp.setBackgroundColor).toList

/-- The style of a command, if it has one. -/
def queueCommand (style : Option ContentStyle) : List TermOp := (style.map queueStyle).getD []

/-- `u8::is_ascii_graphic`. -/
def isAsciiGraphic (byte : UInt8) : Bool := 0x21 ≤ byte && byte ≤ 0x7e

/-- `u8::is_ascii_whitespace`. -/
def isAsciiWhitespace (byte : UInt8) : Bool :=
  byte == 0x20 || byte == 0x09 || byte == 0x0a || byte == 0x0c || byte == 0x0d

/-- `hex_view/mod.rs:120–132`, with the colours of lines 13–21. -/
def getByteColor (byte : UInt8) : Color :=
  if byte = 0x00 then .ansiValue 150
  else if isAsciiGraphic byte then .cyan
  else if isAsciiWhitespace byte then .green
  else if byte < 0x80 then .rgb 232 52 210
  else .yellow

/-- `hex_view/mod.rs:134–151`. -/
def colorizeByte (byte : UInt8) (styleCmd : StylingCommand) : StylingCommand :=
  styleCmd.withStartStyle
    { style :=
        { foregroundColor := some (getByteColor byte)
          backgroundColor := styleCmd.startStyle.bind ContentStyle.backgroundColor }
      priority := .basic }

/-- `hex_view/mod.rs:153–156`: a slice of sixty-four blanks. -/
def makePadding (len : Nat) : Option String :=
  if len ≤ 64 then some (String.ofList (List.replicate len ' ')) else none

/-- `hex_view/mod.rs:158–168`. -/
def byteAsciiRepr (byte : UInt8) : String :=
  if isAsciiGraphic byte || byte == 0x20 then String.ofList [Char.ofNat byte.toNat] else "."

/-- `format!("{:x}", n)`. -/
def hexText (n : UInt8) : String := String.ofList (Nat.toDigits 16 n.toNat)

/-- `hex_view/mod.rs:177–202`. -/
def drawHexByte (byte : UInt8) (style : StylingCommand) : List TermOp :=
  let styleCmd := colorizeByte byte style
  queueCommand styleCmd.startStyle ++ [.print (hexText (byte >>> 4))] ++
    queueCommand styleCmd.midStyle ++ [.print (hexText (byte &&& 0xf))] ++
    queueCommand styleCmd.endStyle ++ [.print " "]

/-- `hex_view/mod.rs:204–223`. -/
def drawAsciiByte (byte : UInt8) (style : StylingCommand) : List TermOp :=
  let styleCmd := colorizeByte byte style
  queueCommand styleCmd.startStyle ++ [.print (byteAsciiRepr byte)] ++
    queueCommand styleCmd.endStyle

/-- `OutputColorizer::draw`, `hex_view/mod.rs:225–242`. -/
def drawText (text : String) (style : StylingCommand) : List TermOp :=
  queueCommand style.startStyle ++ [.print text] ++ queueCommand style.endStyle

/-! ## Backgrounds -/

/-- The background after a style was queued. -/
def ContentStyle.over (style : Option ContentStyle) (background : Color) : Color :=
  (style.bind ContentStyle.backgroundColor).getD background

/-- No style leaves the background. -/
@[simp] theorem ContentStyle.over_none (background : Color) :
    ContentStyle.over none background = background := rfl

/-- A style sets the background it has. -/
@[simp] theorem background_after_queueCommand (brush : Brush Color) (style : Option ContentStyle) :
    (brush.after (queueCommand style)).background = ContentStyle.over style brush.background := by
  rcases style with - | ⟨- | fg, - | bg⟩ <;> rfl

/-- A style prints nothing. -/
@[simp] theorem printed_queueCommand (brush : Brush Color) (style : Option ContentStyle) :
    brush.printed (queueCommand style) = [] := by
  rcases style with - | ⟨- | fg, - | bg⟩ <;> rfl

/-- The background of the first digit of a byte, after a background. -/
def StylingCommand.first (cmd : StylingCommand) (background : Color) : Color :=
  ContentStyle.over cmd.startStyle background

/-- That of the second digit. -/
def StylingCommand.second (cmd : StylingCommand) (background : Color) : Color :=
  ContentStyle.over cmd.midStyle (cmd.first background)

/-- The background that the byte leaves. -/
def StylingCommand.leaves (cmd : StylingCommand) (background : Color) : Color :=
  ContentStyle.over cmd.endStyle (cmd.second background)

/-- A byte is printed as two digits and a gap. -/
theorem printed_drawHexByte (brush : Brush Color) (byte : UInt8) (cmd : StylingCommand) :
    brush.printed (drawHexByte byte cmd) =
        [(hexText (byte >>> 4), cmd.first brush.background),
          (hexText (byte &&& 0xf), cmd.second brush.background),
          (" ", cmd.leaves brush.background)] ∧
      (brush.after (drawHexByte byte cmd)).background = cmd.leaves brush.background := by
  simp only [drawHexByte, Brush.printed_append, Brush.after_append, printed_queueCommand,
    Brush.printed_print, Brush.printed_nil, Brush.after_cons, Brush.after_nil, Brush.apply,
    background_after_queueCommand, List.nil_append, List.append_nil, List.cons_append]
  exact ⟨rfl, rfl⟩

end Tofu
