import Tofu.Base.Unicode

/-!
# The characters of the inspector

`src/src/hex_view/byte_properties.rs:81–122`: the inspector reads the bytes from the caret
on as one character of UTF-8 and as one of big-endian UTF-16. It asks the standard library
whether a stretch of them is a whole string, for longer and longer stretches, and takes the
first character of the first that is.

`String::from_utf8` and `String::from_utf16` are parameters that accept exactly what is well
formed.
-/

namespace Tofu

open Unicode

/-- The two readers of strings. -/
structure StringReader where
  fromUtf8 : List UInt8 → Option (List Char)
  fromUtf16 : List UInt16 → Option (List Char)
  fromUtf8_eq_some_iff : ∀ {bytes s}, fromUtf8 bytes = some s ↔ bytes = utf8.encodeAll s
  fromUtf16_eq_some_iff : ∀ {units s}, fromUtf16 units = some s ↔ units = utf16.encodeAll s

/-- Readers that decode character by character. -/
def StringReader.reference : StringReader where
  fromUtf8 := utf8.decodeAll
  fromUtf16 := utf16.decodeAll
  fromUtf8_eq_some_iff := PrefixCode.decodeAll_eq_some_iff
  fromUtf16_eq_some_iff := PrefixCode.decodeAll_eq_some_iff

/-- `Err('�')`. -/
def noChar : Except Char Char := .error (.ofNat 0xFFFD)

/-- The character, or the mark that there is none. -/
def orNoChar : Option Char → Except Char Char
  | some c => .ok c
  | none => noChar

/-- `byte_properties.rs:81–91`: the loop over the lengths from one to four. `none` is the
`unwrap` of the first character of an empty string. -/
def utf8IntoChar (S : StringReader) (data : List UInt8) : Option (Except Char Char) :=
  let maxCharLen := if data.length < 4 then data.length else 4
  (firstAccepted S.fromUtf8 data (List.range' 1 maxCharLen)).map orNoChar

/-- `byte_properties.rs:105–122`. -/
def utf16IntoChar (S : StringReader) (data : List UInt8) : Option (Except Char Char) :=
  match data with
  | d₀ :: d₁ :: rest =>
    match S.fromUtf16 [fromBeBytes d₀ d₁] with
    | some s => s.head?.map .ok
    | none =>
      match rest with
      | d₂ :: d₃ :: _ =>
        match S.fromUtf16 [fromBeBytes d₀ d₁, fromBeBytes d₂ d₃] with
        | some s => s.head?.map .ok
        | none => some noChar
      | _ => some noChar
  | _ => some noChar

variable (S : StringReader)

/-- `utf8_into_char` decodes the first character of the bytes. -/
theorem utf8IntoChar_eq (data : List UInt8) :
    utf8IntoChar S data = some (orNoChar (utf8.decode data)) := by
  have hmax : (if data.length < 4 then data.length else 4) = min 4 data.length := by
    split <;> omega
  rw [utf8IntoChar, hmax, PrefixCode.firstAccepted_range S.fromUtf8_eq_some_iff
    length_utf8_encode_le]
  rfl

/-- The two cases are the lengths of one and of two units. -/
theorem utf16IntoChar_eq_firstAccepted (data : List UInt8) :
    utf16IntoChar S data = (firstAccepted S.fromUtf16 (beUnits data)
      (List.range' 1 (min 2 (beUnits data).length))).map orNoChar := by
  have hhead (s : List Char) : s.head?.map Except.ok = (s.head?.map some).map orNoChar := by
    cases s <;> rfl
  match data with
  | [] => rfl
  | [_] => rfl
  | [d₀, d₁] | [d₀, d₁, _] =>
    have hone : List.range' 1 (min 2 [fromBeBytes d₀ d₁].length) = [1] := rfl
    simp only [utf16IntoChar, beUnits, hone, firstAccepted, List.take_succ_cons, List.take_nil]
    cases S.fromUtf16 [fromBeBytes d₀ d₁] with
    | some s => exact hhead s
    | none => rfl
  | d₀ :: d₁ :: d₂ :: d₃ :: rest =>
    have htwo : min 2 (beUnits (d₀ :: d₁ :: d₂ :: d₃ :: rest)).length = 2 := by
      simp only [beUnits, List.length_cons]
      omega
    rw [htwo]
    simp only [utf16IntoChar, beUnits, List.range', firstAccepted, List.take_succ_cons,
      List.take_zero]
    cases S.fromUtf16 [fromBeBytes d₀ d₁] with
    | some s => exact hhead s
    | none =>
      cases S.fromUtf16 [fromBeBytes d₀ d₁, fromBeBytes d₂ d₃] with
      | some s => exact hhead s
      | none => rfl

/-- So does `utf16_into_char` of their big-endian units. -/
theorem utf16IntoChar_eq (data : List UInt8) :
    utf16IntoChar S data = some (orNoChar (utf16.decode (beUnits data))) := by
  rw [utf16IntoChar_eq_firstAccepted, PrefixCode.firstAccepted_range S.fromUtf16_eq_some_iff
    length_utf16_encode_le]
  rfl

private theorem orNoChar_eq_ok_iff {o : Option Char} {c : Char} :
    orNoChar o = .ok c ↔ o = some c := by
  cases o <;> simp [orNoChar, noChar]

/-- The inspector shows a character exactly when the bytes begin with its encoding: in UTF-8,
and in big-endian UTF-16. -/
theorem intoChar_eq_ok_iff (data : List UInt8) (c : Char) :
    (utf8IntoChar S data = some (.ok c) ↔ String.utf8EncodeChar c <+: data) ∧
    (utf16IntoChar S data = some (.ok c) ↔
      (utf16EncodeChar c).flatMap toBeBytes <+: data) := by
  constructor
  · rw [utf8IntoChar_eq, Option.some.injEq, orNoChar_eq_ok_iff]
    exact utf8.decode_eq_some_iff
  · rw [utf16IntoChar_eq, Option.some.injEq, orNoChar_eq_ok_iff, flatMap_toBeBytes_prefix_iff]
    exact utf16.decode_eq_some_iff

end Tofu
