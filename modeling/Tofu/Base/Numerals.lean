import Mathlib.Data.String.Basic
import Mathlib.Tactic.IntervalCases

/-!
# Numbers in text

A reader of positional numbers in which blanks may stand between digits. It reads back what
`Nat.toDigits` prints, also behind zeros, and a minus sign in front of it.
-/

namespace Tofu

/-- The value of a digit of a base up to sixteen. -/
def digitValue (c : Char) : Option Nat :=
  if '0' ≤ c ∧ c ≤ '9' then some (c.toNat - '0'.toNat)
  else if 'a' ≤ c ∧ c ≤ 'f' then some (c.toNat - 'a'.toNat + 10)
  else none

/-- The number of which `n` was read and the text is left. -/
def readFrom (base : Nat) : Nat → List Char → Option Nat
  | n, [] => some n
  | n, c :: text =>
    if c = ' ' then readFrom base n text
    else (digitValue c).bind fun d ↦ readFrom base (base * n + d) text

/-- The number that a text shows in a base. -/
def readNumber (base : Nat) (text : List Char) : Option Nat := readFrom base 0 text

/-- The same for a decimal number that may have a minus sign. -/
def readInt : List Char → Option Int
  | '-' :: text => (readNumber 10 text).map fun n : Nat ↦ -(n : Int)
  | text => (readNumber 10 text).map Int.ofNat

section Reader

variable {base n : Nat}

/-- A text is read on from the number that the one before it shows. -/
theorem readFrom_append (text text' : List Char) :
    readFrom base n (text ++ text') =
      (readFrom base n text).bind fun n ↦ readFrom base n text' := by
  induction text generalizing n with
  | nil => rfl
  | cons c text ih =>
    rw [List.cons_append, readFrom, readFrom]
    split
    · exact ih
    · cases digitValue c with
      | none => rfl
      | some d => exact ih

private theorem readFrom_blanks (k : Nat) : readFrom base n (List.replicate k ' ') = some n := by
  induction k with
  | zero => rfl
  | succ k ih => exact ih

/-- The blanks behind a number do not count. -/
theorem readFrom_append_blanks (text : List Char) (k : Nat) :
    readFrom base n (text ++ List.replicate k ' ') = readFrom base n text := by
  simp [readFrom_append, readFrom_blanks]

private theorem digitValue_digitChar {d : Nat} (h : d < 16) :
    d.digitChar ≠ ' ' ∧ digitValue d.digitChar = some d := by
  interval_cases d <;> decide

/-- A digit moves the number one place and is added to it. -/
theorem readFrom_digitChar {d : Nat} (h : d < 16) (text : List Char) :
    readFrom base n (d.digitChar :: text) = readFrom base (base * n + d) text := by
  obtain ⟨hblank, hvalue⟩ := digitValue_digitChar h
  rw [readFrom, if_neg hblank, hvalue, Option.bind_some]

/-- Digits are read as what they print, behind what was read before. -/
theorem readFrom_toDigits (hb : 1 < base) (h16 : base ≤ 16) (m : Nat) :
    readFrom base n (Nat.toDigits base m) =
      some (base ^ (Nat.toDigits base m).length * n + m) := by
  induction m using Nat.base_induction base hb generalizing n with
  | single m hm =>
    rw [Nat.toDigits_of_lt_base hm, readFrom_digitChar (Nat.lt_of_lt_of_le hm h16), readFrom,
      List.length_singleton, Nat.pow_one]
  | digit m k hk hm ih =>
    rw [← Nat.toDigits_append_toDigits hb hm hk, Nat.toDigits_of_lt_base hk, readFrom_append, ih,
      Option.bind_some, readFrom_digitChar (Nat.lt_of_lt_of_le hk h16), readFrom,
      List.length_append, List.length_singleton, Nat.pow_succ, Nat.mul_add, Nat.add_assoc,
      Nat.mul_comm _ base, Nat.mul_assoc]

/-- Zeros only move it. -/
theorem readFrom_zeros (k : Nat) (text : List Char) :
    readFrom base n (List.replicate k '0' ++ text) = readFrom base (base ^ k * n) text := by
  induction k generalizing n with
  | zero => rw [List.replicate_zero, List.nil_append, Nat.pow_zero, Nat.one_mul]
  | succ k ih =>
    have hzero : readFrom base n ('0' :: (List.replicate k '0' ++ text)) =
        readFrom base (base * n) (List.replicate k '0' ++ text) :=
      @readFrom_digitChar base n 0 (by decide) _
    rw [List.replicate_succ, List.cons_append, hzero, ih, Nat.pow_succ, Nat.mul_assoc]

private theorem readNumber_toDigits (hb : 1 < base) (h16 : base ≤ 16) (m : Nat) :
    readNumber base (Nat.toDigits base m) = some m := by
  rw [readNumber, readFrom_toDigits hb h16, Nat.mul_zero, Nat.zero_add]

/-- The digits of a number are below the base. -/
theorem exists_of_mem_toDigits (hb : 1 < base) {m : Nat} {c : Char}
    (h : c ∈ Nat.toDigits base m) : ∃ d < base, c = d.digitChar := by
  induction m using Nat.base_induction base hb with
  | single m hm =>
    rw [Nat.toDigits_of_lt_base hm, List.mem_singleton] at h
    exact ⟨m, hm, h⟩
  | digit m k hk hm ih =>
    rw [← Nat.toDigits_append_toDigits hb hm hk, Nat.toDigits_of_lt_base hk, List.mem_append,
      List.mem_singleton] at h
    rcases h with h | h
    · exact ih h
    · exact ⟨k, hk, h⟩

end Reader

/-! ## Bytes of digits -/

/-- A text has no more characters than bytes. -/
theorem length_le_utf8Len (text : List Char) : text.length ≤ String.utf8Len text := by
  induction text with
  | nil => exact Nat.le_refl _
  | cons c text ih =>
    have hpos := c.utf8Size_pos
    rw [String.utf8Len_cons, List.length_cons]
    omega

/-- Characters of one byte are as many as the bytes. -/
theorem utf8Len_eq_length {text : List Char} (h : ∀ c ∈ text, c.utf8Size = 1) :
    String.utf8Len text = text.length := by
  induction text with
  | nil => rfl
  | cons c text ih =>
    obtain ⟨hc, h⟩ := List.forall_mem_cons.mp h
    rw [String.utf8Len_cons, ih h, hc, List.length_cons]

/-- Digits up to base sixteen take a byte each. -/
theorem utf8Size_of_mem_toDigits {base : Nat} (hb : 1 < base) (h16 : base ≤ 16) {m : Nat} {c : Char}
    (h : c ∈ Nat.toDigits base m) : c.utf8Size = 1 := by
  obtain ⟨d, hd, rfl⟩ := exists_of_mem_toDigits hb h
  have hlt : d < 16 := Nat.lt_of_lt_of_le hd h16
  interval_cases d <;> rfl

/-- So the bytes of a number are its digits. -/
theorem utf8Len_toDigits {base : Nat} (hb : 1 < base) (h16 : base ≤ 16) (m : Nat) :
    String.utf8Len (Nat.toDigits base m) = (Nat.toDigits base m).length :=
  utf8Len_eq_length fun _ ↦ utf8Size_of_mem_toDigits hb h16

/-! ## Signs -/

private theorem digit_ne_minus {c : Char} (h : c.isDigit) : c ≠ '-' := by
  rintro rfl
  cases h

/-- The text of an integer: its digits, behind a minus sign if it is negative. -/
theorem toList_toString_int (i : Int) :
    (toString i).toList = (if i < 0 then ['-'] else []) ++ Nat.toDigits 10 i.natAbs := by
  cases i with
  | ofNat n =>
    rw [show toString (Int.ofNat n) = toString n from rfl, Nat.toString_eq_ofList_toDigits,
      String.toList_ofList]
    rfl
  | negSucc n =>
    rw [show toString (Int.negSucc n) = "-" ++ toString (n + 1) from rfl, String.toList_append,
      Nat.toString_eq_ofList_toDigits, if_pos (Int.negSucc_lt_zero n)]
    simp only [String.toList_ofList]
    rfl

/-- A number in decimal has as many bytes as characters. -/
theorem utf8ByteSize_toString_int (i : Int) :
    (toString i).utf8ByteSize = (toString i).toList.length := by
  have hsize : (toString i).utf8ByteSize = String.utf8Len (toString i).toList := by
    rw [← String.utf8ByteSize_ofList, String.ofList_toList]
  rw [hsize, toList_toString_int, String.utf8Len_append, List.length_append,
    utf8Len_toDigits (by decide) (by decide)]
  split <;> rfl

/-- A decimal number with its sign is read back, and the blanks behind it do not count. -/
theorem readInt_toString (i : Int) (k : Nat) :
    readInt ((toString i).toList ++ List.replicate k ' ') = some i := by
  have hdigits : readNumber 10 (Nat.toDigits 10 i.natAbs ++ List.replicate k ' ') =
      some i.natAbs := by
    rw [readNumber, readFrom_append_blanks]
    exact readNumber_toDigits (by decide) (by decide) _
  rw [toList_toString_int, List.append_assoc]
  split
  · next hneg =>
    rw [List.singleton_append, readInt, hdigits, Option.map_some]
    congr 1
    omega
  · next hnonneg =>
    rw [List.nil_append, readInt, hdigits, Option.map_some]
    · congr 1
      exact Int.natAbs_of_nonneg (Int.not_lt.mp hnonneg)
    · -- the first digit is not the sign
      intro text heq
      obtain ⟨d, ds, hd⟩ := List.exists_cons_of_ne_nil (@Nat.toDigits_ne_nil i.natAbs 10)
      rw [hd, List.cons_append, List.cons.injEq] at heq
      have hmem : d ∈ Nat.toDigits 10 i.natAbs := hd ▸ List.mem_cons_self
      exact digit_ne_minus (Nat.isDigit_of_mem_toDigits (by decide) (by decide) hmem) heq.1

end Tofu
