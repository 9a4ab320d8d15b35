import Mathlib.Order.Bounds.Basic
import Tofu.Selection.Region

/-!
# Where movement and boundary jumps put the caret

`simple_move`, `simple_extend`, `jump_to_boundary` and `extend_to_boundary`,
`src/src/selection.rs:267–366`, against the offsets a user means. A typed count may be any
word; upwards and to the left it is cast to a signed word, downwards and to the right it is
added to the caret, and both can leave the word.
-/

namespace Tofu

namespace SelRegion

/-! ## Movement -/

/-- The offset `count` steps away, computed in the integers and clamped to the buffer. -/
def targetCaret (direction : Direction) (bytesPerLine maxSize count caret : Nat) : Nat :=
  match direction with
  | .up => caret - bytesPerLine * count
  | .down => min maxSize (caret + bytesPerLine * count)
  | .left => caret - count
  | .right => min maxSize (caret + count)

/-- `movedCaret` with casts that keep the value and operations that do not overflow. -/
def movedCaretChecked (direction : Direction) (bytesPerLine maxSize count oldCaret : Nat) :
    Option Nat :=
  match direction with
  | .up => do
    let caret ← isizeTryFrom oldCaret
    let line ← isizeTryFrom bytesPerLine
    let count ← isizeTryFrom count
    let moved ← isizeCheckedSub caret (isizeSaturatingMul line count)
    usizeTryFrom (max 0 moved)
  | .down => (usizeCheckedAdd oldCaret (usizeSaturatingMul bytesPerLine count)).map (min maxSize)
  | .left => do
    let caret ← isizeTryFrom oldCaret
    let count ← isizeTryFrom count
    let moved ← isizeCheckedSub caret count
    usizeTryFrom (max 0 moved)
  | .right => (usizeCheckedAdd oldCaret count).map (min maxSize)

/-- The counts a movement can take: signed words upwards and to the left, counts that keep
the sum within the word downwards and to the right. -/
def CountInWord (direction : Direction) (bytesPerLine count caret : Nat) : Prop :=
  match direction with
  | .up => bytesPerLine < 2 ^ 63 ∧ count < 2 ^ 63
  | .down => caret = 0 ∨ caret + bytesPerLine * count < 2 ^ 64
  | .left => count < 2 ^ 63
  | .right => caret + count < 2 ^ 64

instance (direction : Direction) (bytesPerLine count caret : Nat) :
    Decidable (CountInWord direction bytesPerLine count caret) :=
  match direction with
  | .up => inferInstanceAs (Decidable (_ ∧ _))
  | .down => inferInstanceAs (Decidable (_ ∨ _))
  | .left => inferInstanceAs (Decidable (_ < _))
  | .right => inferInstanceAs (Decidable (_ < _))

variable {bytesPerLine maxSize count caret : Nat}

private theorem isizeTryFrom_of_lt {n : Nat} (h : n < 2 ^ 63) : isizeTryFrom n = some (n : Int) :=
  if_pos h

private theorem lt_of_isizeTryFrom {n : Nat} {i : Int} (h : isizeTryFrom n = some i) :
    n < 2 ^ 63 := by
  by_contra hn
  rw [isizeTryFrom, if_neg hn] at h
  simp at h

private theorem checked_difference (k : Nat) (hc : caret < 2 ^ 63) :
    ((isizeCheckedSub caret (min k (2 ^ 63 - 1) : Nat)).bind fun moved ↦
      usizeTryFrom (max 0 moved)) = some (caret - k) := by
  rw [isizeCheckedSub, if_pos (by omega), Option.bind_some, usizeTryFrom, if_pos (by omega)]
  congr 1
  omega

/-- The checked computation succeeds on the counts of `CountInWord` alone. -/
theorem countInWord_of_checked {direction : Direction} {c : Nat}
    (h : movedCaretChecked direction bytesPerLine maxSize count caret = some c) :
    CountInWord direction bytesPerLine count caret := by
  cases direction with
  | up =>
    obtain ⟨_, -, h⟩ := Option.bind_eq_some_iff.mp h
    obtain ⟨_, hline, h⟩ := Option.bind_eq_some_iff.mp h
    obtain ⟨_, hcount, -⟩ := Option.bind_eq_some_iff.mp h
    exact ⟨lt_of_isizeTryFrom hline, lt_of_isizeTryFrom hcount⟩
  | left =>
    obtain ⟨_, -, h⟩ := Option.bind_eq_some_iff.mp h
    obtain ⟨_, hcount, -⟩ := Option.bind_eq_some_iff.mp h
    exact lt_of_isizeTryFrom hcount
  | down =>
    -- from offset 0 the saturated product is added without an overflow
    change caret = 0 ∨ caret + bytesPerLine * count < 2 ^ 64
    obtain ⟨sum, hsum, -⟩ := Option.map_eq_some_iff.mp h
    have hlt := isSome_usizeCheckedAdd.mp (Option.isSome_of_eq_some hsum)
    unfold usizeSaturatingMul at hlt
    omega
  | right =>
    obtain ⟨sum, hsum, -⟩ := Option.map_eq_some_iff.mp h
    exact isSome_usizeCheckedAdd.mp (Option.isSome_of_eq_some hsum)

/-- On those counts it gives the target. -/
theorem movedCaretChecked_eq {direction : Direction} (hc : caret ≤ maxSize)
    (hm : maxSize < 2 ^ 63) (h : CountInWord direction bytesPerLine count caret) :
    movedCaretChecked direction bytesPerLine maxSize count caret =
      some (targetCaret direction bytesPerLine maxSize count caret) := by
  have hcaret := isizeTryFrom_of_lt (show caret < 2 ^ 63 by omega)
  cases direction with
  | up =>
    simp only [movedCaretChecked, hcaret, isizeTryFrom_of_lt h.1, isizeTryFrom_of_lt h.2,
      Option.bind_eq_bind, Option.bind_some, isizeSaturatingMul_natCast]
    exact checked_difference _ (by omega)
  | left =>
    have hn : count < 2 ^ 63 := h
    have hsat : (count : Int) = (min count (2 ^ 63 - 1) : Nat) := by omega
    simp only [movedCaretChecked, hcaret, isizeTryFrom_of_lt hn, Option.bind_eq_bind,
      Option.bind_some]
    rw [hsat]
    exact checked_difference _ (by omega)
  | down =>
    have h : caret = 0 ∨ caret + bytesPerLine * count < 2 ^ 64 := h
    have hsum : caret + usizeSaturatingMul bytesPerLine count < 2 ^ 64 := by
      unfold usizeSaturatingMul
      omega
    simp only [movedCaretChecked, targetCaret, usizeCheckedAdd, if_pos hsum, Option.map_some]
    unfold usizeSaturatingMul
    congr 1
    omega
  | right =>
    have h : caret + count < 2 ^ 64 := h
    simp only [movedCaretChecked, targetCaret, usizeCheckedAdd, if_pos h, Option.map_some]

/-- Where nothing overflows the code computes the checked value. -/
theorem movedCaret_of_checked {direction : Direction} (hc : caret ≤ maxSize)
    (hm : maxSize < 2 ^ 63) (h : CountInWord direction bytesPerLine count caret) :
    movedCaret direction bytesPerLine maxSize count caret =
      targetCaret direction bytesPerLine maxSize count caret := by
  cases direction with
  | up => exact movedCaret_up maxSize h.1 h.2 (by omega)
  | left => exact movedCaret_left bytesPerLine maxSize h (by omega)
  | down =>
    have h : caret = 0 ∨ caret + bytesPerLine * count < 2 ^ 64 := h
    simp only [movedCaret, targetCaret, usizeSaturatingMul, usizeAdd]
    omega
  | right =>
    have h : caret + count < 2 ^ 64 := h
    simp only [movedCaret, targetCaret, usizeAdd_of_lt h]

/-- Movement and extension reach the target without an overflow, a wrap or a change of sign
exactly for the counts of `CountInWord`. -/
theorem movement_exact_iff (r : SelRegion) (direction : Direction) (hc : r.caret ≤ maxSize)
    (h0 : 0 < maxSize) (hm : maxSize < 2 ^ 63) :
    (r.simpleMove direction bytesPerLine maxSize count =
        new (targetCaret direction bytesPerLine maxSize count r.caret)
          (targetCaret direction bytesPerLine maxSize count r.caret) ∧
      r.simpleExtend direction bytesPerLine maxSize count =
        new (targetCaret direction bytesPerLine maxSize count r.caret) r.tail ∧
      movedCaretChecked direction bytesPerLine maxSize count r.caret =
        some (targetCaret direction bytesPerLine maxSize count r.caret)) ↔
      CountInWord direction bytesPerLine count r.caret := by
  constructor
  · rintro ⟨-, -, h⟩
    exact countInWord_of_checked h
  · intro h
    have hmoved := movedCaret_of_checked hc hm h
    rw [simpleMove, simpleExtend, if_neg (by omega), if_neg (by omega), hmoved]
    exact ⟨rfl, rfl, movedCaretChecked_eq hc hm h⟩

/-- Ten lines up from offset 200, in lines of sixteen bytes. -/
theorem movement_exact_ten_up :
    (new 200 195).simpleMove .up 16 400 10 = new 40 40 ∧
      (new 200 195).simpleExtend .up 16 400 10 = new 40 195 ∧
      movedCaretChecked .up 16 400 10 200 = some 40 :=
  (movement_exact_iff (new 200 195) .up (by decide) (by decide) (by decide)).mpr (by decide)

/-- The count `x8000000000000006` of an `h` moves the caret out of the buffer, and
`xffffffffffffffff` of an `l` moves it to the left. -/
theorem movement_wraps :
    (new 5 5).simpleMove .left 16 10 0x8000000000000006 = new (2 ^ 63 - 1) (2 ^ 63 - 1) ∧
      targetCaret .left 16 10 0x8000000000000006 5 = 0 ∧
      (new 5 5).simpleMove .right 16 10 (2 ^ 64 - 1) = new 4 4 ∧
      targetCaret .right 16 10 (2 ^ 64 - 1) 5 = 10 ∧
      (new 5 5).simpleExtend .up 16 10 (2 ^ 64 - 1) = new 21 5 ∧
      targetCaret .up 16 10 (2 ^ 64 - 1) 5 = 0 ∧
      (new 5 5).simpleExtend .down 16 10 (2 ^ 64 - 1) = new 4 5 ∧
      targetCaret .down 16 10 (2 ^ 64 - 1) 5 = 10 := by
  decide +kernel

/-! ## Boundary jumps -/

/-- The offset is of a byte in the line of the caret. -/
def LineByte (bytesPerLine maxSize caret offset : Nat) : Prop :=
  offset < maxSize ∧ offset / bytesPerLine = caret / bytesPerLine

/-- `caretLocation` is on a byte of the buffer and, sideways, on the first or last byte of
the line of the caret if the line has one. -/
def OnBoundary (direction : Direction) (bytesPerLine maxSize caret caretLocation : Nat) : Prop :=
  caretLocation < maxSize ∧
    ((∃ offset, LineByte bytesPerLine maxSize caret offset) →
      match direction with
      | .left => IsLeast {offset | LineByte bytesPerLine maxSize caret offset} caretLocation
      | .right => IsGreatest {offset | LineByte bytesPerLine maxSize caret offset} caretLocation
      | .up | .down => True)

private theorem lineByte_iff (hb : 1 ≤ bytesPerLine) (offset : Nat) :
    LineByte bytesPerLine maxSize caret offset ↔ offset < maxSize ∧
      caret - caret % bytesPerLine ≤ offset ∧
      offset < caret - caret % bytesPerLine + bytesPerLine := by
  have hline : caret - caret % bytesPerLine = caret / bytesPerLine * bytesPerLine := by
    have := Nat.div_add_mod' caret bytesPerLine
    omega
  rw [LineByte, hline, Nat.div_eq_iff (by omega)]
  omega

/-- Only a jump to the left from a line without bytes leaves the data. -/
theorem onBoundary_iff (direction : Direction) (hc : caret ≤ maxSize) (h0 : 0 < maxSize)
    (hb : 1 ≤ bytesPerLine) (hword : maxSize + bytesPerLine < 2 ^ 64) :
    OnBoundary direction bytesPerLine maxSize caret
        (boundaryCaret direction bytesPerLine maxSize caret) ↔
      ¬ (direction = .left ∧ caret = maxSize ∧ bytesPerLine ∣ maxSize) := by
  have hmod := Nat.mod_lt caret hb
  have hle := Nat.mod_le caret bytesPerLine
  cases direction with
  | up => simp [OnBoundary, boundaryCaret, h0]
  | down => simp [OnBoundary, boundaryCaret, Nat.sub_one_lt_of_lt h0]
  | left =>
    simp only [true_and, Nat.dvd_iff_mod_eq_zero]
    constructor
    · rintro ⟨hlt, -⟩ ⟨rfl, hd⟩
      simp only [boundaryCaret] at hlt
      omega
    · intro h
      have hlt : caret - caret % bytesPerLine < maxSize := by
        by_contra hn
        have heq : caret = maxSize := by omega
        subst heq
        omega
      have hfirst : LineByte bytesPerLine maxSize caret (caret - caret % bytesPerLine) :=
        (lineByte_iff hb _).mpr ⟨hlt, Nat.le_refl _, by omega⟩
      exact ⟨hlt, fun _ ↦ ⟨hfirst, fun offset ho ↦ ((lineByte_iff hb _).mp ho).2.1⟩⟩
  | right =>
    simp only [reduceCtorEq, false_and, not_false_eq_true, iff_true]
    rw [boundaryCaret_right maxSize hb (by omega)]
    refine ⟨by omega, ?_⟩
    rintro ⟨o, ho⟩
    obtain ⟨ho, hfirst, hlast⟩ := (lineByte_iff hb _).mp ho
    refine ⟨(lineByte_iff hb _).mpr (by omega), fun offset ho' ↦ ?_⟩
    have := (lineByte_iff hb _).mp ho'
    omega

/-- The boundary of a boundary is the same one. -/
theorem boundaryCaret_idem (direction : Direction) {maxSize caret : Nat} (hc : caret ≤ maxSize)
    (hb : 1 ≤ bytesPerLine) (hword : maxSize + bytesPerLine < 2 ^ 64) :
    boundaryCaret direction bytesPerLine maxSize
        (boundaryCaret direction bytesPerLine maxSize caret) =
      boundaryCaret direction bytesPerLine maxSize caret := by
  have hdiv := Nat.div_add_mod' caret bytesPerLine
  have hmod := Nat.mod_lt caret hb
  cases direction with
  | up => rfl
  | down => rfl
  | left =>
    have hline : caret - caret % bytesPerLine = caret / bytesPerLine * bytesPerLine := by omega
    simp only [boundaryCaret, hline, Nat.mul_mod_left, Nat.sub_zero]
  | right =>
    have hright := boundaryCaret_right maxSize hb (show caret + bytesPerLine < 2 ^ 64 by omega)
    rw [hright, boundaryCaret_right maxSize hb (by omega)]
    generalize hl : caret + bytesPerLine - caret % bytesPerLine - 1 = last
    -- the last column of the line, where the next boundary is the offset itself
    have hlast : last % bytesPerLine = bytesPerLine - 1 := by
      have : last = bytesPerLine - 1 + caret / bytesPerLine * bytesPerLine := by omega
      rw [this, Nat.add_mul_mod_self_right, Nat.mod_eq_of_lt (by omega)]
    by_cases h : last ≤ maxSize - 1
    · rw [Nat.min_eq_left h, hlast]
      omega
    · have hmin : min last (maxSize - 1) = maxSize - 1 := by omega
      have := Nat.mod_lt (maxSize - 1) hb
      rw [hmin]
      omega

/-- A boundary jump or extension lands on data, at the end of the line it is meant for, and
is not changed by a second one, except for a jump to the left from the overflow position of
a buffer of whole lines. -/
theorem boundary_jumps_iff (r : SelRegion) (direction : Direction) (hr : r.InBounds maxSize)
    (h0 : 0 < maxSize) (hb : 1 ≤ bytesPerLine) (hword : maxSize + bytesPerLine < 2 ^ 64) :
    (OnBoundary direction bytesPerLine maxSize r.caret
        (r.jumpToBoundary direction bytesPerLine maxSize).caret ∧
      OnBoundary direction bytesPerLine maxSize r.caret
        (r.extendToBoundary direction bytesPerLine maxSize).caret ∧
      (r.jumpToBoundary direction bytesPerLine maxSize).jumpToBoundary direction bytesPerLine
        maxSize = r.jumpToBoundary direction bytesPerLine maxSize ∧
      (r.extendToBoundary direction bytesPerLine maxSize).extendToBoundary direction bytesPerLine
        maxSize = r.extendToBoundary direction bytesPerLine maxSize) ↔
      ¬ (direction = .left ∧ r.caret = maxSize ∧ bytesPerLine ∣ maxSize) := by
  have hne : maxSize ≠ 0 := by omega
  have hidem := boundaryCaret_idem direction hr.1 hb hword
  simp only [jumpToBoundary, extendToBoundary, if_neg hne, caret_new, tail_new, hidem, and_true,
    and_self]
  exact onBoundary_iff direction hr.1 h0 hb hword

/-- To the left from the middle of the second line. -/
theorem boundary_jumps_second_line :
    OnBoundary .left 16 40 20 ((new 20 3).jumpToBoundary .left 16 40).caret ∧
      ((new 20 3).jumpToBoundary .left 16 40).caret = 16 :=
  ⟨((boundary_jumps_iff (new 20 3) .left (by decide) (by decide) (by decide) (by decide)).mpr
    (by decide)).1, by decide⟩

/-- From the overflow position of two whole lines the jump to the left stays there. -/
theorem boundary_jump_overflow :
    ((new 32 32).jumpToBoundary .left 16 32).caret = 32 ∧
      ¬ OnBoundary .left 16 32 32 ((new 32 32).jumpToBoundary .left 16 32).caret :=
  ⟨by decide, fun h ↦ absurd h.1 (by decide)⟩

end SelRegion

end Tofu
