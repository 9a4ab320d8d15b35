import Tofu.Base.PrefixCode

/-!
# The Unicode encodings

UTF-8 writes a scalar value as one to four bytes and UTF-16 as one 16-bit unit or as a pair
of surrogates, units that are no scalar values themselves. Both are prefix codes: for UTF-8
this is the decoder of the standard library.
-/

namespace Tofu.Unicode

/-- UTF-8. -/
def utf8 : PrefixCode Char UInt8 where
  encode := String.utf8EncodeChar
  decode bytes := bytes.toByteArray.utf8DecodeChar? 0
  encode_ne_nil _ := String.utf8EncodeChar_ne_nil
  decode_eq_some_iff := by
    intro bytes c
    constructor
    · intro h
      obtain ⟨rest, hrest⟩ := ByteArray.exists_of_utf8DecodeChar?_eq_some h
      refine ⟨rest.data.toList, ?_⟩
      rw [← List.toByteArray_inj, List.toByteArray_append, hrest]
      congr 1
      apply ByteArray.ext
      rw [List.data_toByteArray]
    · rintro ⟨rest, rfl⟩
      rw [List.toByteArray_append]
      exact ByteArray.utf8DecodeChar?_utf8EncodeChar_append

/-- The units of a scalar value, `0x10000` and above as two surrogates of ten bits each. -/
def utf16EncodeChar (c : Char) : List UInt16 :=
  if c.toNat < 0x10000 then [.ofNat c.toNat]
  else
    let v := c.toNat - 0x10000
    [.ofNat (0xD800 + v / 0x400), .ofNat (0xDC00 + v % 0x400)]

/-- The scalar value of a high surrogate and the unit behind it. -/
def decodePair (u : UInt16) : List UInt16 → Option Char
  | [] => none
  | v :: _ =>
    if 0xDC00 ≤ v.toNat ∧ v.toNat ≤ 0xDFFF then
      some (.ofNat (0x10000 + (u.toNat - 0xD800) * 0x400 + (v.toNat - 0xDC00)))
    else none

/-- The first scalar value of a stream of units. -/
def utf16DecodeChar : List UInt16 → Option Char
  | [] => none
  | u :: units =>
    if u.toNat < 0xD800 ∨ 0xDFFF < u.toNat then some (.ofNat u.toNat)
    else if 0xDC00 ≤ u.toNat then none
    else decodePair u units

private theorem toNat_ofNat_of_valid {n : Nat} (h : n.isValidChar) : (Char.ofNat n).toNat = n := by
  rw [Char.ofNat, dif_pos h]
  rfl

private theorem toNat_valid (c : Char) : c.toNat < 0xD800 ∨ 0xDFFF < c.toNat ∧ c.toNat < 0x110000 :=
  c.valid

private theorem toNat_ofNat_unit {n : Nat} (h : n < 0x10000) : (UInt16.ofNat n).toNat = n :=
  UInt16.toNat_ofNat_of_lt' h

private theorem utf16EncodeChar_of_lt {c : Char} (h : c.toNat < 0x10000) :
    utf16EncodeChar c = [.ofNat c.toNat] := if_pos h

private theorem utf16EncodeChar_of_le {c : Char} (h : 0x10000 ≤ c.toNat) :
    utf16EncodeChar c = [.ofNat (0xD800 + (c.toNat - 0x10000) / 0x400),
      .ofNat (0xDC00 + (c.toNat - 0x10000) % 0x400)] := if_neg (Nat.not_lt.mpr h)

/-- A surrogate is read as half of a pair, so no scalar value is read in two ways. -/
theorem utf16DecodeChar_encode_append (c : Char) (units : List UInt16) :
    utf16DecodeChar (utf16EncodeChar c ++ units) = some c := by
  have hvalid := toNat_valid c
  by_cases h : c.toNat < 0x10000
  · have hu := toNat_ofNat_unit (n := c.toNat) h
    rw [utf16EncodeChar_of_lt h, List.singleton_append, utf16DecodeChar, hu,
      if_pos (by omega), Char.ofNat_toNat]
  · have hle : 0x10000 ≤ c.toNat := Nat.not_lt.mp h
    have hhi := toNat_ofNat_unit (n := 0xD800 + (c.toNat - 0x10000) / 0x400) (by omega)
    have hlo := toNat_ofNat_unit (n := 0xDC00 + (c.toNat - 0x10000) % 0x400) (by omega)
    have hback : 0x10000 + (0xD800 + (c.toNat - 0x10000) / 0x400 - 0xD800) * 0x400 +
        (0xDC00 + (c.toNat - 0x10000) % 0x400 - 0xDC00) = c.toNat := by omega
    rw [utf16EncodeChar_of_le hle, List.cons_append, List.cons_append, utf16DecodeChar, hhi,
      if_neg (by omega), if_neg (by omega), decodePair, hhi, hlo, if_pos (by omega), hback,
      Char.ofNat_toNat]

private theorem encode_prefix_of_utf16DecodeChar {c : Char} {units : List UInt16}
    (h : utf16DecodeChar units = some c) : utf16EncodeChar c <+: units := by
  cases units with
  | nil => cases h
  | cons u units =>
    rw [utf16DecodeChar] at h
    have hu := u.toNat_lt
    by_cases hscalar : u.toNat < 0xD800 ∨ 0xDFFF < u.toNat
    · rw [if_pos hscalar] at h
      obtain rfl := Option.some.inj h
      have hn : (Char.ofNat u.toNat).toNat = u.toNat :=
        toNat_ofNat_of_valid (hscalar.imp_right fun h ↦ ⟨h, by omega⟩)
      rw [utf16EncodeChar_of_lt (by omega), hn, UInt16.ofNat_toNat]
      exact List.prefix_append [u] units
    · rw [if_neg hscalar] at h
      by_cases hlow : 0xDC00 ≤ u.toNat
      · rw [if_pos hlow] at h
        cases h
      · rw [if_neg hlow] at h
        cases units with
        | nil => cases h
        | cons v units =>
          rw [decodePair] at h
          by_cases hv : 0xDC00 ≤ v.toNat ∧ v.toNat ≤ 0xDFFF
          · rw [if_pos hv] at h
            obtain rfl := Option.some.inj h
            have hn := toNat_ofNat_of_valid
              (n := 0x10000 + (u.toNat - 0xD800) * 0x400 + (v.toNat - 0xDC00))
              (Or.inr ⟨by omega, by omega⟩)
            have hhi : 0xD800 + (0x10000 + (u.toNat - 0xD800) * 0x400 + (v.toNat - 0xDC00) -
                0x10000) / 0x400 = u.toNat := by omega
            have hlo : 0xDC00 + (0x10000 + (u.toNat - 0xD800) * 0x400 + (v.toNat - 0xDC00) -
                0x10000) % 0x400 = v.toNat := by omega
            rw [utf16EncodeChar_of_le (by omega), hn, hhi, hlo, UInt16.ofNat_toNat,
              UInt16.ofNat_toNat]
            exact List.prefix_append [u, v] units
          · rw [if_neg hv] at h
            cases h

/-- UTF-16. -/
def utf16 : PrefixCode Char UInt16 where
  encode := utf16EncodeChar
  decode := utf16DecodeChar
  encode_ne_nil c := by
    unfold utf16EncodeChar
    split <;> exact List.cons_ne_nil _ _
  decode_eq_some_iff := by
    intro units c
    constructor
    · exact encode_prefix_of_utf16DecodeChar
    · rintro ⟨rest, rfl⟩
      exact utf16DecodeChar_encode_append c rest

/-- At most two units in UTF-16. -/
theorem length_utf16_encode_le (c : Char) : (utf16.encode c).length ≤ 2 := by
  show (utf16EncodeChar c).length ≤ 2
  unfold utf16EncodeChar
  split <;> simp

/-- At most four in UTF-8. -/
theorem length_utf8_encode_le (c : Char) : (utf8.encode c).length ≤ 4 := by
  show (String.utf8EncodeChar c).length ≤ 4
  rw [String.length_utf8EncodeChar]
  exact c.utf8Size_le_four

/-! ## Units as bytes -/

/-- A unit from its bytes, the high one first. -/
def fromBeBytes (hi lo : UInt8) : UInt16 := .ofNat (0x100 * hi.toNat + lo.toNat)

/-- The bytes of a unit, the high one first. -/
def toBeBytes (u : UInt16) : List UInt8 := [.ofNat (u.toNat / 0x100), .ofNat (u.toNat % 0x100)]

/-- The units of a stream of bytes, without a last odd byte. -/
def beUnits : List UInt8 → List UInt16
  | hi :: lo :: bytes => fromBeBytes hi lo :: beUnits bytes
  | _ => []

private theorem toBeBytes_fromBeBytes (hi lo : UInt8) :
    toBeBytes (fromBeBytes hi lo) = [hi, lo] := by
  have hhi := hi.toNat_lt
  have hlo := lo.toNat_lt
  have hn := toNat_ofNat_unit (n := 0x100 * hi.toNat + lo.toNat) (by omega)
  have hdiv : (0x100 * hi.toNat + lo.toNat) / 0x100 = hi.toNat := by omega
  have hmod : (0x100 * hi.toNat + lo.toNat) % 0x100 = lo.toNat := by omega
  rw [toBeBytes, fromBeBytes, hn, hdiv, hmod, UInt8.ofNat_toNat, UInt8.ofNat_toNat]

private theorem fromBeBytes_toBeBytes (u : UInt16) :
    fromBeBytes (.ofNat (u.toNat / 0x100)) (.ofNat (u.toNat % 0x100)) = u := by
  have hu := u.toNat_lt
  have hhi : (UInt8.ofNat (u.toNat / 0x100)).toNat = u.toNat / 0x100 :=
    UInt8.toNat_ofNat_of_lt' (by show _ < 256; omega)
  have hlo : (UInt8.ofNat (u.toNat % 0x100)).toNat = u.toNat % 0x100 :=
    UInt8.toNat_ofNat_of_lt' (by show _ < 256; omega)
  rw [fromBeBytes, hhi, hlo, Nat.div_add_mod, UInt16.ofNat_toNat]

/-- Bytes start with those of some units exactly when their units start with them. -/
theorem flatMap_toBeBytes_prefix_iff {units : List UInt16} {bytes : List UInt8} :
    units.flatMap toBeBytes <+: bytes ↔ units <+: beUnits bytes := by
  induction units generalizing bytes with
  | nil => simp
  | cons u units ih =>
    match bytes with
    | [] => simp [toBeBytes, beUnits]
    | [x] => simp [toBeBytes, beUnits]
    | hi :: lo :: bytes =>
      rw [List.flatMap_cons, beUnits, List.cons_prefix_cons, ← ih]
      constructor
      · intro h
        simp only [toBeBytes, List.cons_append, List.nil_append, List.cons_prefix_cons] at h
        obtain ⟨rfl, rfl, h⟩ := h
        exact ⟨(fromBeBytes_toBeBytes u).symm, h⟩
      · rintro ⟨rfl, h⟩
        rw [toBeBytes_fromBeBytes]
        simpa using h

end Tofu.Unicode
