import Tofu.Base.Numerals
import Tofu.View.Characters
import Tofu.View.HexView
import Tofu.View.Styles

/-!
# The lines about the current bytes

`src/src/hex_view/byte_properties.rs:10–79, 93–103, 139–236`: five lines show the byte at the
caret and the four bytes from it on in hexadecimal, in binary, as unsigned and as signed
numbers and as characters. A number of fewer than four bytes is one of four whose first
bytes are zero.

Which characters the standard library prints as they are when it formats a character with
`{:?}` is a parameter.
-/

namespace Tofu

open Rope

/-! ## Styled bytes on the display -/

/-- Choosing colours does not leave the line. -/
theorem inLine_queueCommand (style : Option ContentStyle) : InLine (queueCommand style) := by
  rcases style with - | ⟨- | fg, - | bg⟩ <;>
    exact ⟨by simp [queueCommand, queueStyle, DisplayOp.inline], rfl⟩

/-- Choosing colours prints nothing. -/
theorem textOf_queueCommand (style : Option ContentStyle) : textOf (queueCommand style) = [] := by
  rcases style with - | ⟨- | fg, - | bg⟩ <;> rfl

/-- Operations in the style of a byte, which has a foreground. -/
theorem inLine_colorizeByte (byte : UInt8) (cmd : StylingCommand) {ops : List TermOp}
    (h : ∀ op ∈ ops, op.inline) :
    InLine (queueCommand (colorizeByte byte cmd).startStyle ++ ops) := by
  have hstart : queueCommand (colorizeByte byte cmd).startStyle =
      .setForegroundColor (getByteColor byte) ::
        (((colorizeByte byte cmd).startStyle.bind ContentStyle.backgroundColor).map
          DisplayOp.setBackgroundColor).toList := rfl
  have hinline := (inLine_queueCommand (colorizeByte byte cmd).startStyle).inline
  rw [hstart] at hinline ⊢
  exact .setForegroundColor
    (List.forall_mem_append.mpr ⟨(List.forall_mem_cons.mp hinline).2, h⟩) _

/-- The digits of a byte stay on their line. -/
theorem inLine_drawHexByte (byte : UInt8) (cmd : StylingCommand) :
    InLine (drawHexByte byte cmd) := by
  simp only [drawHexByte, List.append_assoc]
  refine inLine_colorizeByte byte cmd ?_
  simp only [List.forall_mem_append]
  exact ⟨by simp [DisplayOp.inline], (inLine_queueCommand _).inline,
    by simp [DisplayOp.inline], (inLine_queueCommand _).inline, by simp [DisplayOp.inline]⟩

/-- So does its character. -/
theorem inLine_drawAsciiByte (byte : UInt8) (cmd : StylingCommand) :
    InLine (drawAsciiByte byte cmd) := by
  simp only [drawAsciiByte, List.append_assoc]
  refine inLine_colorizeByte byte cmd ?_
  simp only [List.forall_mem_append]
  exact ⟨by simp [DisplayOp.inline], (inLine_queueCommand _).inline⟩

namespace ByteProperties

/-! ## Styles and texts -/

/-- A foreground on `Reset`, from the start on. -/
def textStyle (foreground : Color) : StylingCommand :=
  ({} : StylingCommand).withStartStyle
    { style := { foregroundColor := some foreground, backgroundColor := some .reset }
      priority := .basic }

/-- `BIN_ZERO_STYLE`, `byte_properties.rs:11–19`. -/
def binZeroStyle : StylingCommand := textStyle (.ansiValue 150)

/-- `BIN_ONE_STYLE`, `byte_properties.rs:20–28`. -/
def binOneStyle : StylingCommand := textStyle .blue

/-- `INVALID_DATA_STYLE`, `byte_properties.rs:29–37`. -/
def invalidDataStyle : StylingCommand := textStyle .red

/-- `DEFAULT_STYLE`, `byte_properties.rs:38–46`. -/
def defaultTextStyle : StylingCommand := textStyle .darkMagenta

/-- `DEFAULT_VALUE_STYLE`, `byte_properties.rs:47–55`. -/
def defaultValueStyle : StylingCommand := textStyle (.ansiValue 150)

/-- `draw_hex_byte` of a byte colorized twice, `byte_properties.rs:153–157`. -/
def drawHexValue (byte : UInt8) : List TermOp :=
  drawHexByte byte (colorizeByte byte defaultValueStyle)

/-- `format!("{:08b}", byte)`. -/
def binaryDigits (byte : UInt8) : List Char :=
  let digits := Nat.toDigits 2 byte.toNat
  List.replicate (8 - digits.length) '0' ++ digits

/-- `byte_properties.rs:58–71`. -/
def formatBinaryByte (byte : UInt8) : List TermOp :=
  (binaryDigits byte).flatMap fun c ↦
    if c = '0' then drawText "0" binZeroStyle
    else if c = '1' then drawText "1" binOneStyle
    else []

/-- `format!("{:x?}", c)`: the character between apostrophes, or its number, or the name of its
escape. Graphic characters of ASCII, two of which have escapes as well, do not get here. -/
def debugChar (printable : Char → Bool) (c : Char) : List Char :=
  let escaped :=
    if c = '\x00' then ['\\', '0']
    else if c = '\t' then ['\\', 't']
    else if c = '\r' then ['\\', 'r']
    else if c = '\n' then ['\\', 'n']
    else if printable c then [c]
    else ['\\', 'u', '\x7b'] ++ Nat.toDigits 16 c.toNat ++ ['\x7d']
  '\x27' :: escaped ++ ['\x27']

/-- `byte_properties.rs:73–79`. -/
def formatChar (printable : Char → Bool) (c : Char) : String :=
  if '!' ≤ c ∧ c ≤ '~' then String.ofList [c] else String.ofList (debugChar printable c)

/-- `byte_properties.rs:93–103`. -/
def bytesTo4ByteVec (data : List UInt8) : List UInt8 :=
  if data.length ≥ 4 then data.take 4 else List.replicate (4 - data.length) 0 ++ data

/-- `u32::from_be_bytes(bytes.try_into().unwrap())`. -/
def u32FromBeBytes : List UInt8 → Option UInt32
  | [a, b, c, d] =>
    some (.ofNat (((a.toNat * 256 + b.toNat) * 256 + c.toNat) * 256 + d.toNat))
  | _ => none

/-! ## Lines -/

/-- A byte and a number of four bytes, the second in a fixed column: `byte_properties.rs:173–188`
and `:190–205`. -/
def decimalLine (label byteLiteral label32 value : String) : Option (List TermOp) := do
  let len := byteLiteral.utf8ByteSize
  let padding ← (checkedSub 12 len).bind makePadding
  some (drawText label defaultTextStyle ++ drawText byteLiteral defaultValueStyle ++
    drawText padding defaultTextStyle ++ drawText label32 defaultTextStyle ++
      drawText value defaultValueStyle)

/-- A character that was found, or the mark of one that was not. -/
def charText (printable : Char → Bool) : Except Char Char → String
  | .ok c => formatChar printable c
  | .error c => String.ofList [c]

/-- The style of a character that was found, and of the mark of one that was not. -/
def charStyle : Except Char Char → StylingCommand
  | .ok _ => defaultValueStyle
  | .error _ => invalidDataStyle

/-- The columns left for it; the mark counts as one. -/
def charLen (printable : Char → Bool) : Except Char Char → Nat
  | .ok c => (formatChar printable c).utf8ByteSize
  | .error _ => 1

/-- `byte_properties.rs:207–229`. -/
def charLine (S : StringReader) (printable : Char → Bool) (data : List UInt8) :
    Option (List TermOp) := do
  let utf8 ← utf8IntoChar S data
  let padding ← (checkedSub 12 (charLen printable utf8)).bind makePadding
  let utf16 ← utf16IntoChar S data
  some (drawText " utf-8: " defaultTextStyle ++
    drawText (charText printable utf8) (charStyle utf8) ++
    drawText padding defaultTextStyle ++ drawText "  utf-16: " defaultTextStyle ++
    drawText (charText printable utf16) (charStyle utf16))

end ByteProperties

/-- `byte_properties.rs:124–127`. -/
structure BytePropertiesFormatter where
  data : List UInt8
  line : Nat
  deriving DecidableEq, Repr

namespace BytePropertiesFormatter

/-- `byte_properties.rs:130–133`. -/
def new (data : List UInt8) : Option BytePropertiesFormatter :=
  if data.length ≤ 4 then some { data, line := 0 } else none

/-- `byte_properties.rs:135–137`. -/
def areAllPrinted (f : BytePropertiesFormatter) : Bool := decide (f.line > height - 1)

/-- The next line, `byte_properties.rs:233`. -/
def drawLine (f : BytePropertiesFormatter) : BytePropertiesFormatter :=
  { f with line := f.line + 1 }

end BytePropertiesFormatter

open ByteProperties

/-- What `draw_line` queues, `byte_properties.rs:139–236`. -/
def BytePropertiesFormatter.lineOps (S : StringReader) (printable : Char → Bool)
    (f : BytePropertiesFormatter) : Option (List TermOp) :=
  let firstByte := f.data.headD 0
  match f.line with
  | 0 => some (drawText "hex u8: " defaultTextStyle ++ drawHexValue firstByte ++
      drawText "          hex u32: " defaultTextStyle ++ f.data.flatMap drawHexValue)
  | 1 => some (drawText "bin u8: " defaultTextStyle ++ formatBinaryByte firstByte ++
      drawText "     bin u32: " defaultTextStyle ++
      f.data.flatMap fun byte ↦ formatBinaryByte byte ++ drawText " " defaultTextStyle)
  | 2 => do
    let value ← u32FromBeBytes (bytesTo4ByteVec f.data)
    decimalLine "dec u8: " (toString firstByte.toNat) " dec u32: " (toString value.toNat)
  | 3 => do
    let value ← u32FromBeBytes (bytesTo4ByteVec f.data)
    decimalLine "dec i8: " (toString firstByte.toInt8.toInt) " dec i32: "
      (toString value.toInt32.toInt)
  | 4 => charLine S printable f.data
  | _ => some []


/-! ## What the lines say -/

namespace ByteProperties

/-- The number that bytes are, the most significant one first. -/
def bigEndianFrom (n : Nat) (data : List UInt8) : Nat :=
  data.foldl (fun n byte ↦ 256 * n + byte.toNat) n

/-- The number that bytes are, the most significant one first. -/
def bigEndian (data : List UInt8) : Nat := bigEndianFrom 0 data

/-- The number of so many bits in two's complement. -/
def twosComplement (bits n : Nat) : Int := if n < 2 ^ (bits - 1) then n else n - 2 ^ bits

/-- The two hexadecimal digits of a byte. -/
def hexDigits (byte : UInt8) : List Char :=
  [(byte.toNat / 16).digitChar, (byte.toNat % 16).digitChar]

private theorem textOf_drawText (text : String) (style : StylingCommand) :
    textOf (drawText text style) = text.toList := by
  simp only [drawText, textOf_append, textOf_queueCommand, List.nil_append, List.append_nil, textOf]

private theorem toList_hexText {n : UInt8} (h : n.toNat < 16) :
    (hexText n).toList = [n.toNat.digitChar] := by
  rw [hexText, String.toList_ofList, Nat.toDigits_of_lt_base h]

/-- The two halves of a byte are its digits. -/
theorem toList_hexText_digits (byte : UInt8) :
    (hexText (byte >>> 4)).toList = [(byte.toNat / 16).digitChar] ∧
      (hexText (byte &&& 0xf)).toList = [(byte.toNat % 16).digitChar] := by
  have hlt := byte.toNat_lt
  have hshift : (byte >>> 4).toNat = byte.toNat / 16 := by
    rw [UInt8.toNat_shiftRight, show (4 : UInt8).toNat % 8 = 4 from rfl,
      Nat.shiftRight_eq_div_pow]
  have hmask : (byte &&& 0xf).toNat = byte.toNat % 16 := by
    rw [UInt8.toNat_and]
    exact Nat.and_two_pow_sub_one_eq_mod byte.toNat 4
  rw [toList_hexText (by omega), toList_hexText (by omega), hshift, hmask]
  exact ⟨rfl, rfl⟩

/-- A byte is printed as its digits and a gap. -/
theorem textOf_drawHexByte (byte : UInt8) (cmd : StylingCommand) :
    textOf (drawHexByte byte cmd) = hexDigits byte ++ [' '] := by
  obtain ⟨hhigh, hlow⟩ := toList_hexText_digits byte
  simp only [drawHexByte, textOf_append, textOf_queueCommand, List.nil_append, textOf, hhigh, hlow,
    List.append_nil]
  rfl

private theorem length_binaryDigits (byte : UInt8) : (binaryDigits byte).length = 8 := by
  have hle : (Nat.toDigits 2 byte.toNat).length ≤ 8 :=
    (Nat.length_toDigits_le_iff (by decide) (by decide)).mpr byte.toNat_lt
  simp only [binaryDigits, List.length_append, List.length_replicate]
  omega

private theorem textOf_formatBinaryByte (byte : UInt8) :
    textOf (formatBinaryByte byte) = binaryDigits byte := by
  have hdigit : ∀ c ∈ binaryDigits byte, c = '0' ∨ c = '1' := by
    intro c hc
    rcases List.mem_append.mp hc with hc | hc
    · exact .inl (List.eq_of_mem_replicate hc)
    · obtain ⟨d, hd, rfl⟩ := exists_of_mem_toDigits (by decide) hc
      interval_cases d
      · exact .inl rfl
      · exact .inr rfl
  rw [formatBinaryByte, textOf_flatMap]
  generalize binaryDigits byte = digits at hdigit
  induction digits with
  | nil => rfl
  | cons c digits ih =>
    obtain ⟨hc, hdigit⟩ := List.forall_mem_cons.mp hdigit
    rw [List.flatMap_cons, ih hdigit]
    rcases hc with rfl | rfl <;> rfl

private theorem readFrom_hexDigits (n : Nat) (byte : UInt8) :
    readFrom 16 n (hexDigits byte) = some (256 * n + byte.toNat) := by
  have hlt := byte.toNat_lt
  rw [hexDigits, readFrom_digitChar (by omega), readFrom_digitChar (by omega), readFrom]
  congr 1
  omega

private theorem readFrom_binaryDigits (n : Nat) (byte : UInt8) :
    readFrom 2 n (binaryDigits byte) = some (256 * n + byte.toNat) := by
  have hlen := length_binaryDigits byte
  simp only [binaryDigits, List.length_append, List.length_replicate] at hlen
  simp only [binaryDigits, readFrom_zeros, readFrom_toDigits (show 1 < 2 by decide)
    (show 2 ≤ 16 by decide)]
  rw [← Nat.mul_assoc, ← Nat.pow_add, Nat.add_comm _ (8 - _), hlen]

/-- Bytes one after the other are read as one number, with blanks between them or not. -/
theorem readFrom_flatMap {base : Nat} {digits : UInt8 → List Char}
    (h : ∀ n byte, readFrom base n (digits byte) = some (256 * n + byte.toNat)) (n : Nat)
    (data : List UInt8) :
    readFrom base n (data.flatMap fun byte ↦ digits byte ++ [' ']) =
      some (bigEndianFrom n data) := by
  induction data generalizing n with
  | nil => rfl
  | cons byte data ih =>
    have hbyte : readFrom base n (digits byte ++ [' ']) = some (256 * n + byte.toNat) :=
      (readFrom_append_blanks _ 1).trans (h n byte)
    rw [List.flatMap_cons, readFrom_append, hbyte, Option.bind_some, ih]
    rfl

/-! ## Numbers of four bytes -/

private theorem bigEndianFrom_append (n : Nat) (data data' : List UInt8) :
    bigEndianFrom n (data ++ data') = bigEndianFrom (bigEndianFrom n data) data' :=
  List.foldl_append

private theorem bigEndian_replicate_zero (k : Nat) : bigEndian (List.replicate k 0) = 0 := by
  induction k with
  | zero => rfl
  | succ k ih => exact ih

private theorem bigEndian_bytesTo4ByteVec {data : List UInt8} (h : data.length ≤ 4) :
    (bytesTo4ByteVec data).length = 4 ∧ bigEndian (bytesTo4ByteVec data) = bigEndian data := by
  unfold bytesTo4ByteVec
  split
  · rw [List.take_of_length_le h]
    exact ⟨by omega, rfl⟩
  · refine ⟨?_, ?_⟩
    · rw [List.length_append, List.length_replicate]
      omega
    · rw [bigEndian, bigEndianFrom_append, ← bigEndian, bigEndian_replicate_zero]
      rfl

private theorem exists_u32FromBeBytes {data : List UInt8} (h : data.length ≤ 4) :
    ∃ value, u32FromBeBytes (bytesTo4ByteVec data) = some value ∧
      value.toNat = bigEndian data := by
  obtain ⟨hlen, heq⟩ := bigEndian_bytesTo4ByteVec h
  obtain ⟨a, b, c, d, hvec⟩ := List.length_eq_four.mp hlen
  rw [← heq, hvec]
  refine ⟨_, rfl, ?_⟩
  have ha := a.toNat_lt
  have hb := b.toNat_lt
  have hc := c.toNat_lt
  have hd := d.toNat_lt
  simp only [bigEndian, bigEndianFrom, List.foldl_cons, List.foldl_nil]
  rw [UInt32.toNat_ofNat_of_lt' (by simp only [UInt32.size]; omega)]
  omega

private theorem toInt_toInt8 (byte : UInt8) : byte.toInt8.toInt = twosComplement 8 byte.toNat := by
  have hcond : byte.toInt8.toInt =
      if 2 * byte.toNat < 2 ^ 8 then (byte.toNat : Int) else byte.toNat - (2 ^ 8 : Nat) :=
    BitVec.toInt_eq_toNat_cond byte.toBitVec
  rw [hcond, twosComplement]
  split <;> split <;> omega

private theorem toInt_toInt32 (n : UInt32) : n.toInt32.toInt = twosComplement 32 n.toNat := by
  have hcond : n.toInt32.toInt =
      if 2 * n.toNat < 2 ^ 32 then (n.toNat : Int) else n.toNat - (2 ^ 32 : Nat) :=
    BitVec.toInt_eq_toNat_cond n.toBitVec
  rw [hcond, twosComplement]
  split <;> split <;> omega

/-! ## The fields -/

/-- A line has two fields, thirteen columns from the eighth on and what comes behind the
thirtieth, that read as these values. -/
def FieldsRead {α : Type} (read : List Char → Option α) (text : List Char) (first second : α) :
    Prop :=
  read ((text.drop 8).take 13) = some first ∧ read (text.drop 30) = some second

private theorem fieldsRead_of_eq {α : Type} {read : List Char → Option α}
    {label field label32 field32 : List Char} {first second : α} (hlabel : label.length = 8)
    (hfield : field.length = 13) (hlabel32 : label32.length = 9)
    (hread : read field = some first) (hread32 : read field32 = some second) :
    FieldsRead read (label ++ (field ++ (label32 ++ field32))) first second := by
  have hdrop : (label ++ (field ++ (label32 ++ field32))).drop 8 = field ++ (label32 ++ field32) :=
    List.drop_left' hlabel
  constructor
  · rw [hdrop, List.take_left' hfield, hread]
  · rw [show 30 = 8 + (13 + 9) from rfl, ← List.drop_drop, hdrop, ← List.drop_drop,
      List.drop_left' hfield, List.drop_left' hlabel32, hread32]

/-- A padding of up to sixty-four blanks is there. -/
theorem makePadding_of_le {k : Nat} (h : k ≤ 64) :
    makePadding k = some (String.ofList (List.replicate k ' ')) := if_pos h

/-- A line of two decimal numbers, the first of which is short. -/
theorem exists_decimalLine (label label32 value : String) {byteLiteral : String}
    (hsize : byteLiteral.utf8ByteSize = byteLiteral.toList.length)
    (hlen : byteLiteral.toList.length ≤ 12) :
    ∃ ops, decimalLine label byteLiteral label32 value = some ops ∧
      textOf ops = label.toList ++ (byteLiteral.toList ++
        List.replicate (12 - byteLiteral.toList.length) ' ' ++
          (label32.toList ++ value.toList)) := by
  have hpadding : (checkedSub 12 byteLiteral.utf8ByteSize).bind makePadding =
      some (String.ofList (List.replicate (12 - byteLiteral.toList.length) ' ')) := by
    rw [hsize, checkedSub, if_pos hlen, Option.bind_some, makePadding_of_le (by omega)]
  refine ⟨_, by rw [decimalLine, hpadding]; rfl, ?_⟩
  simp only [textOf_append, textOf_drawText, String.toList_ofList, List.append_assoc]

private theorem length_toString_int_le {i : Int} (h : i.natAbs < 1000) :
    (toString i).toList.length ≤ 12 := by
  have hle : (Nat.toDigits 10 i.natAbs).length ≤ 3 :=
    (Nat.length_toDigits_le_iff (by decide) (by decide)).mpr h
  have hsign : (if i < 0 then ['-'] else []).length ≤ 1 := by
    split <;> decide
  rw [toList_toString_int, List.length_append]
  omega

/-- Its two numbers are read back. -/
theorem fieldsRead_decimalLine (label label32 : String) {i j : Int} (hi : i.natAbs < 1000)
    (hlabel : label.toList.length = 8) {rest : List Char} (hlabel32 : label32.toList = ' ' :: rest)
    (hrest : rest.length = 9) :
    ∃ ops, decimalLine label (toString i) label32 (toString j) = some ops ∧
      FieldsRead readInt (textOf ops) i j := by
  have hlen := length_toString_int_le hi
  obtain ⟨ops, hops, htext⟩ := exists_decimalLine label label32 (toString j)
    (utf8ByteSize_toString_int i) hlen
  refine ⟨ops, hops, ?_⟩
  have hsplit : textOf ops = label.toList ++ ((toString i).toList ++
      List.replicate (13 - (toString i).toList.length) ' ' ++ (rest ++ (toString j).toList)) := by
    have hblank : List.replicate (13 - (toString i).toList.length) ' ' =
        List.replicate (12 - (toString i).toList.length) ' ' ++ [' '] := by
      rw [← List.replicate_succ']
      congr 1
      omega
    rw [htext, hlabel32, hblank]
    simp only [List.append_assoc, List.cons_append, List.nil_append]
  rw [hsplit]
  refine fieldsRead_of_eq hlabel ?_ hrest (readInt_toString i _) ?_
  · rw [List.length_append, List.length_replicate]
    omega
  · simpa using readInt_toString j 0

/-- A character is shown in at most twelve bytes. -/
theorem utf8ByteSize_formatChar_le (printable : Char → Bool) (c : Char) :
    (formatChar printable c).utf8ByteSize ≤ 12 := by
  have hone := c.utf8Size_le_four
  unfold formatChar
  split
  · rw [String.utf8ByteSize_ofList, String.utf8Len_cons, String.utf8Len_nil]
    omega
  · have hnumber : (Nat.toDigits 16 c.toNat).length ≤ 6 := by
      refine (Nat.length_toDigits_le_iff (by decide) (by decide)).mpr ?_
      have hvalid := c.valid
      unfold UInt32.isValidChar Nat.isValidChar at hvalid
      have hnat : c.toNat = c.val.toNat := rfl
      omega
    have hdigits := utf8Len_toDigits (show 1 < 16 by decide) (Nat.le_refl 16) c.toNat
    rw [String.utf8ByteSize_ofList, debugChar]
    split
    · decide
    · split
      · decide
      · split
        · decide
        · split
          · decide
          · split
            · simp only [String.utf8Len_cons, String.utf8Len_nil, List.cons_append,
                List.nil_append, show Char.utf8Size '\x27' = 1 from rfl]
              omega
            · simp only [String.utf8Len_cons, String.utf8Len_append, String.utf8Len_nil,
                List.cons_append, List.nil_append, hdigits, show Char.utf8Size '\x27' = 1 from rfl,
                show Char.utf8Size '\\' = 1 from rfl, show Char.utf8Size 'u' = 1 from rfl,
                show Char.utf8Size '\x7b' = 1 from rfl, show Char.utf8Size '\x7d' = 1 from rfl]
              omega

private theorem exists_charLine (S : StringReader) (printable : Char → Bool) (data : List UInt8) :
    ∃ ops, charLine S printable data = some ops := by
  have hlen : charLen printable (orNoChar (Unicode.utf8.decode data)) ≤ 12 := by
    cases Unicode.utf8.decode data with
    | none => exact (by decide : 1 ≤ 12)
    | some c => exact utf8ByteSize_formatChar_le printable c
  rw [charLine, utf8IntoChar_eq, Option.bind_eq_bind, Option.bind_some, checkedSub, if_pos hlen,
    Option.bind_some, makePadding_of_le (by omega), utf16IntoChar_eq]
  exact ⟨_, rfl⟩

/-! ## Columns -/

/-- A field and the padding behind it take twelve columns, or less where a character has more
bytes than columns. -/
theorem length_field_le {text padding : String} {bytes : Nat}
    (htext : text.toList.length ≤ bytes)
    (h : (checkedSub 12 bytes).bind makePadding = some padding) :
    text.toList.length + padding.toList.length ≤ 12 := by
  obtain ⟨k, hk, h⟩ := Option.bind_eq_some_iff.mp h
  have hsum := add_eq_of_checkedSub hk
  rw [makePadding_of_le (by omega)] at h
  obtain rfl := Option.some.inj h
  rw [String.toList_ofList, List.length_replicate]
  omega

private theorem length_decimalLine_le {label byteLiteral label32 value : String}
    {ops : List TermOp} (h : decimalLine label byteLiteral label32 value = some ops) :
    (textOf ops).length ≤
      label.toList.length + 12 + label32.toList.length + value.toList.length := by
  obtain ⟨padding, hpadding, h⟩ := Option.bind_eq_some_iff.mp h
  obtain rfl := Option.some.inj h
  have hbytes : byteLiteral.toList.length ≤ byteLiteral.utf8ByteSize := by
    rw [← String.ofList_toList (s := byteLiteral), String.utf8ByteSize_ofList,
      String.toList_ofList]
    exact length_le_utf8Len _
  have hfield := length_field_le hbytes hpadding
  simp only [textOf_append, textOf_drawText, List.length_append]
  omega

/-- A character is not shown in more columns than are counted for it. -/
theorem length_charText_le (printable : Char → Bool) (c : Except Char Char) :
    (charText printable c).toList.length ≤ charLen printable c ∧ charLen printable c ≤ 12 := by
  cases c with
  | error c =>
    rw [charText, charLen, String.toList_ofList]
    exact ⟨Nat.le_refl 1, by decide⟩
  | ok c =>
    refine ⟨?_, utf8ByteSize_formatChar_le printable c⟩
    show (formatChar printable c).toList.length ≤ (formatChar printable c).utf8ByteSize
    rw [← String.ofList_toList (s := formatChar printable c), String.utf8ByteSize_ofList,
      String.toList_ofList]
    exact length_le_utf8Len _

private theorem length_charLine_le {S : StringReader} {printable : Char → Bool}
    {data : List UInt8} {ops : List TermOp} (h : charLine S printable data = some ops) :
    (textOf ops).length ≤ 42 := by
  obtain ⟨utf8, -, h⟩ := Option.bind_eq_some_iff.mp h
  obtain ⟨padding, hpadding, h⟩ := Option.bind_eq_some_iff.mp h
  obtain ⟨utf16, -, h⟩ := Option.bind_eq_some_iff.mp h
  obtain rfl := Option.some.inj h
  have hfield := length_field_le (length_charText_le printable utf8).1 hpadding
  have hsecond := length_charText_le printable utf16
  have hlabel : " utf-8: ".toList.length = 8 := rfl
  have hlabel16 : "  utf-16: ".toList.length = 10 := rfl
  simp only [textOf_append, textOf_drawText, List.length_append]
  omega

private theorem length_flatMap_eq {α β : Type} {f : α → List β} {n : Nat}
    (h : ∀ a, (f a).length = n) (l : List α) : (l.flatMap f).length = l.length * n := by
  rw [List.length_flatMap, List.map_congr_left fun a _ ↦ h a, List.map_const',
    List.sum_replicate_nat]

end ByteProperties

namespace BytePropertiesFormatter

/-- The longest line is that of the binary digits of four bytes. -/
theorem length_lineOps_le {S : StringReader} {printable : Char → Bool}
    {f : BytePropertiesFormatter} {ops : List TermOp} (hfour : f.data.length ≤ 4)
    (h : f.lineOps S printable = some ops) : (textOf ops).length ≤ 66 := by
  obtain ⟨data, line⟩ := f
  change data.length ≤ 4 at hfour
  match line with
  | 0 =>
    obtain rfl := Option.some.inj h
    have hlen := length_flatMap_eq (fun byte ↦ show (hexDigits byte ++ [' ']).length = 3 from rfl)
      data
    have hlabel : "hex u8: ".toList.length = 8 := rfl
    have hlabel32 : "          hex u32: ".toList.length = 19 := rfl
    have hfirst : (hexDigits (data.headD 0) ++ [' ']).length = 3 := rfl
    simp only [textOf_append, textOf_drawText, drawHexValue, textOf_flatMap, textOf_drawHexByte,
      List.length_append] at hlen hfirst ⊢
    omega
  | 1 =>
    obtain rfl := Option.some.inj h
    have hlen := length_flatMap_eq (fun byte ↦ show (binaryDigits byte ++ [' ']).length = 9 by
      rw [List.length_append, length_binaryDigits]; rfl) data
    have hlabel : "bin u8: ".toList.length = 8 := rfl
    have hlabel32 : "     bin u32: ".toList.length = 14 := rfl
    have hblank : " ".toList = [' '] := rfl
    simp only [textOf_append, textOf_drawText, textOf_flatMap, textOf_formatBinaryByte,
      List.length_append, length_binaryDigits, hblank] at hlen ⊢
    omega
  | 2 =>
    obtain ⟨value, -, h⟩ := Option.bind_eq_some_iff.mp h
    have hdigits : (toString value.toNat).toList.length ≤ 10 := by
      rw [Nat.toString_eq_ofList_toDigits, String.toList_ofList]
      refine (Nat.length_toDigits_le_iff (by decide) (by decide)).mpr ?_
      have := value.toNat_lt
      omega
    have hlabel : "dec u8: ".toList.length = 8 := rfl
    have hlabel32 : " dec u32: ".toList.length = 10 := rfl
    have := length_decimalLine_le h
    omega
  | 3 =>
    obtain ⟨value, -, h⟩ := Option.bind_eq_some_iff.mp h
    have hdigits : (toString value.toInt32.toInt).toList.length ≤ 11 := by
      have hsign : (if value.toInt32.toInt < 0 then ['-'] else []).length ≤ 1 := by
        split <;> decide
      have hnumber : (Nat.toDigits 10 value.toInt32.toInt.natAbs).length ≤ 10 := by
        refine (Nat.length_toDigits_le_iff (by decide) (by decide)).mpr ?_
        have := value.toNat_lt
        rw [toInt_toInt32, twosComplement]
        split <;> omega
      rw [toList_toString_int, List.length_append]
      omega
    have hlabel : "dec i8: ".toList.length = 8 := rfl
    have hlabel32 : " dec i32: ".toList.length = 10 := rfl
    have := length_decimalLine_le h
    omega
  | 4 => exact Nat.le_trans (length_charLine_le h) (by decide)
  | line + 5 =>
    obtain rfl := Option.some.inj h
    exact Nat.zero_le _

/-- What a line says. -/
def lineText (S : StringReader) (printable : Char → Bool) (data : List UInt8) (line : Nat) :
    Option (List Char) :=
  (lineOps S printable { data, line }).map textOf

section Lines

variable (S : StringReader) (printable : Char → Bool) {data : List UInt8}

variable (data) in
private theorem exists_hexLine : ∃ text, lineText S printable data 0 = some text ∧
    FieldsRead (readNumber 16) text (data.headD 0).toNat (bigEndian data) := by
  refine ⟨"hex u8: ".toList ++ ((hexDigits (data.headD 0) ++ List.replicate 11 ' ') ++
    ("hex u32: ".toList ++ data.flatMap fun byte ↦ hexDigits byte ++ [' '])), ?_,
    fieldsRead_of_eq rfl rfl rfl ?_ (readFrom_flatMap readFrom_hexDigits 0 data)⟩
  · simp only [lineText, lineOps, Option.map_some, textOf_append, textOf_drawText, drawHexValue,
      textOf_flatMap, textOf_drawHexByte, List.append_assoc]
    rfl
  · rw [readNumber, readFrom_append_blanks, readFrom_hexDigits, Nat.mul_zero, Nat.zero_add]

variable (data) in
private theorem exists_binaryLine : ∃ text, lineText S printable data 1 = some text ∧
    FieldsRead (readNumber 2) text (data.headD 0).toNat (bigEndian data) := by
  refine ⟨"bin u8: ".toList ++ ((binaryDigits (data.headD 0) ++ List.replicate 5 ' ') ++
    ("bin u32: ".toList ++ data.flatMap fun byte ↦ binaryDigits byte ++ [' '])), ?_,
    fieldsRead_of_eq rfl ?_ rfl ?_ (readFrom_flatMap readFrom_binaryDigits 0 data)⟩
  · simp only [lineText, lineOps, Option.map_some, textOf_append, textOf_drawText,
      textOf_flatMap, textOf_formatBinaryByte, List.append_assoc]
    rfl
  · rw [List.length_append, length_binaryDigits, List.length_replicate]
  · rw [readNumber, readFrom_append_blanks, readFrom_binaryDigits, Nat.mul_zero, Nat.zero_add]

private theorem exists_unsignedLine (h : data.length ≤ 4) : ∃ text,
    lineText S printable data 2 = some text ∧
      FieldsRead readInt text (data.headD 0).toNat (bigEndian data) := by
  have hbyte := (data.headD 0).toNat_lt
  obtain ⟨value, hvalue, hnat⟩ := exists_u32FromBeBytes h
  obtain ⟨ops, hops, hread⟩ := fieldsRead_decimalLine "dec u8: " " dec u32: "
    (i := (data.headD 0).toNat) (j := value.toNat) (by omega) rfl rfl rfl
  refine ⟨textOf ops, ?_, hnat ▸ hread⟩
  rw [lineText, lineOps, hvalue]
  exact congrArg (Option.map textOf) hops

private theorem exists_signedLine (h : data.length ≤ 4) : ∃ text,
    lineText S printable data 3 = some text ∧
      FieldsRead readInt text (twosComplement 8 (data.headD 0).toNat)
        (twosComplement 32 (bigEndian data)) := by
  have hbyte := (data.headD 0).toNat_lt
  obtain ⟨value, hvalue, hnat⟩ := exists_u32FromBeBytes h
  have hsmall : (data.headD 0).toInt8.toInt.natAbs < 1000 := by
    rw [toInt_toInt8, twosComplement]
    split <;> omega
  obtain ⟨ops, hops, hread⟩ := fieldsRead_decimalLine "dec i8: " " dec i32: "
    (j := value.toInt32.toInt) hsmall rfl rfl rfl
  rw [toInt_toInt8, toInt_toInt32, hnat] at hread
  refine ⟨textOf ops, ?_, hread⟩
  rw [lineText, lineOps, hvalue]
  exact congrArg (Option.map textOf) hops

/-- Every slice of at most four bytes is shown on all five lines. The first four read back as the
first byte, zero if there is none, and as the number that the slice is with its first byte
the most significant one; on the fourth line both are in two's complement, of eight and of
thirty-two bits. -/
theorem lines_read_back (h : data.length ≤ 4) :
    ∃ hex bin dec signed chars, (List.range height).mapM (lineText S printable data) =
        some [hex, bin, dec, signed, chars] ∧
      FieldsRead (readNumber 16) hex (data.headD 0).toNat (bigEndian data) ∧
      FieldsRead (readNumber 2) bin (data.headD 0).toNat (bigEndian data) ∧
      FieldsRead readInt dec (data.headD 0).toNat (bigEndian data) ∧
      FieldsRead readInt signed (twosComplement 8 (data.headD 0).toNat)
        (twosComplement 32 (bigEndian data)) := by
  obtain ⟨hex, hhex, hhexRead⟩ := exists_hexLine S printable data
  obtain ⟨bin, hbin, hbinRead⟩ := exists_binaryLine S printable data
  obtain ⟨dec, hdec, hdecRead⟩ := exists_unsignedLine S printable h
  obtain ⟨signed, hsigned, hsignedRead⟩ := exists_signedLine S printable h
  obtain ⟨ops, hops⟩ := exists_charLine S printable data
  have hchars : lineText S printable data 4 = some (textOf ops) :=
    congrArg (Option.map textOf) hops
  refine ⟨hex, bin, dec, signed, textOf ops, ?_, hhexRead, hbinRead, hdecRead, hsignedRead⟩
  rw [show List.range height = [0, 1, 2, 3, 4] from rfl]
  simp only [List.mapM_cons, List.mapM_nil, hhex, hbin, hdec, hsigned, hchars]
  rfl

/-! ## The lines on the display -/

/-- The operations stay on their line and leave the default background. -/
structure DrawnInLine (ops : List TermOp) : Prop extends InLine ops where
  background : RestoresBackground Color.reset ops

/-- Two stretches that are drawn in a line are so together. -/
theorem DrawnInLine.append {ops ops' : List TermOp} (h : DrawnInLine ops)
    (h' : DrawnInLine ops') : DrawnInLine (ops ++ ops') :=
  ⟨h.toInLine.append h'.toInLine, h.background.append h'.background⟩

private theorem DrawnInLine.flatMap {α : Type} {l : List α} {f : α → List TermOp}
    (h : ∀ a ∈ l, DrawnInLine (f a)) : DrawnInLine (l.flatMap f) :=
  ⟨.flatMap fun a ha ↦ (h a ha).toInLine, .flatMap fun a ha ↦ (h a ha).background⟩

/-- No operation leaves the line or changes the background. -/
theorem drawnInLine_nil : DrawnInLine [] := ⟨.nil, .nil _⟩

private theorem drawnInLine_drawText (text : String) (foreground : Color) :
    DrawnInLine (drawText text (textStyle foreground)) := by
  have hops : drawText text (textStyle foreground) =
      [.setForegroundColor foreground, .setBackgroundColor .reset, .print text] := rfl
  rw [hops]
  exact ⟨.setForegroundColor (by simp [DisplayOp.inline]) foreground, fun _ _ ↦ rfl⟩

private theorem drawnInLine_charStyle (text : String) (c : Except Char Char) :
    DrawnInLine (drawText text (charStyle c)) := by
  cases c <;> exact drawnInLine_drawText ..

private theorem drawnInLine_drawHexValue (byte : UInt8) : DrawnInLine (drawHexValue byte) :=
  ⟨inLine_drawHexByte .., fun _ _ ↦ rfl⟩

private theorem drawnInLine_formatBinaryByte (byte : UInt8) :
    DrawnInLine (formatBinaryByte byte) := by
  refine .flatMap fun c _ ↦ ?_
  split
  · exact drawnInLine_drawText ..
  · split
    · exact drawnInLine_drawText ..
    · exact drawnInLine_nil

private theorem drawnInLine_decimalLine {label byteLiteral label32 value : String}
    {ops : List TermOp} (h : decimalLine label byteLiteral label32 value = some ops) :
    DrawnInLine ops := by
  obtain ⟨padding, -, h⟩ := Option.bind_eq_some_iff.mp h
  obtain rfl := Option.some.inj h
  exact ((((drawnInLine_drawText ..).append (drawnInLine_drawText ..)).append
    (drawnInLine_drawText ..)).append (drawnInLine_drawText ..)).append (drawnInLine_drawText ..)

private theorem drawnInLine_charLine {ops : List TermOp}
    (h : charLine S printable data = some ops) : DrawnInLine ops := by
  obtain ⟨utf8, -, h⟩ := Option.bind_eq_some_iff.mp h
  obtain ⟨padding, -, h⟩ := Option.bind_eq_some_iff.mp h
  obtain ⟨utf16, -, h⟩ := Option.bind_eq_some_iff.mp h
  obtain rfl := Option.some.inj h
  exact ((((drawnInLine_drawText ..).append (drawnInLine_charStyle ..)).append
    (drawnInLine_drawText ..)).append (drawnInLine_drawText ..)).append (drawnInLine_charStyle ..)

/-- A line about the current bytes stays in its line and leaves the default background. -/
theorem drawnInLine_lineOps {f : BytePropertiesFormatter} {ops : List TermOp}
    (h : f.lineOps S printable = some ops) : DrawnInLine ops := by
  unfold lineOps at h
  simp only at h
  split at h
  · obtain rfl := Option.some.inj h
    exact (((drawnInLine_drawText ..).append (drawnInLine_drawHexValue _)).append
      (drawnInLine_drawText ..)).append (.flatMap fun byte _ ↦ drawnInLine_drawHexValue byte)
  · obtain rfl := Option.some.inj h
    exact (((drawnInLine_drawText ..).append (drawnInLine_formatBinaryByte _)).append
      (drawnInLine_drawText ..)).append
        (.flatMap fun byte _ ↦ (drawnInLine_formatBinaryByte byte).append (drawnInLine_drawText ..))
  · obtain ⟨value, -, h⟩ := Option.bind_eq_some_iff.mp h
    exact drawnInLine_decimalLine h
  · obtain ⟨value, -, h⟩ := Option.bind_eq_some_iff.mp h
    exact drawnInLine_decimalLine h
  · exact drawnInLine_charLine S printable h
  · obtain rfl := Option.some.inj h
    exact drawnInLine_nil

/-- A line is there for at most four bytes. -/
theorem exists_lineOps {f : BytePropertiesFormatter} (h : f.data.length ≤ 4) :
    ∃ ops, f.lineOps S printable = some ops := by
  obtain ⟨data, line⟩ := f
  have hline {line : Nat} {text : List Char} (h : lineText S printable data line = some text) :
      ∃ ops, lineOps S printable { data, line } = some ops := by
    obtain ⟨ops, hops, -⟩ := Option.map_eq_some_iff.mp h
    exact ⟨ops, hops⟩
  match line with
  | 0 => exact ⟨_, rfl⟩
  | 1 => exact ⟨_, rfl⟩
  | 2 =>
    obtain ⟨text, htext, -⟩ := exists_unsignedLine S printable h
    exact hline htext
  | 3 =>
    obtain ⟨text, htext, -⟩ := exists_signedLine S printable h
    exact hline htext
  | 4 => exact exists_charLine S printable data
  | line + 5 => exact ⟨[], rfl⟩

end Lines

/-- Two bytes in front of the end of the data. -/
theorem lines_read_back_two :
    ∃ hex bin dec signed chars, (List.range height).mapM
        (lineText .reference (fun _ ↦ true) [0xff, 0x80]) = some [hex, bin, dec, signed, chars] ∧
      FieldsRead (readNumber 16) hex 255 65408 ∧ FieldsRead (readNumber 2) bin 255 65408 ∧
      FieldsRead readInt dec 255 65408 ∧ FieldsRead readInt signed (-1) 65408 :=
  lines_read_back .reference (fun _ ↦ true) (by decide)

end BytePropertiesFormatter

end Tofu
