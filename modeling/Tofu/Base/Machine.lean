import Mathlib.Algebra.Ring.Int.Defs
import Mathlib.Algebra.Ring.Nat
import Mathlib.Tactic.Common

/-!
# 64-bit words

The editor is built in a release profile, so `usize` and `isize` arithmetic wraps
without a panic. A `usize` is a `Nat` below `2 ^ 64` and an `isize` an `Int`; the
operations below reduce their results to the word, and each has a lemma for the
operands at which it agrees with the integers.
-/

namespace Tofu

/-- `n as isize`. -/
def asIsize (n : Nat) : Int :=
  if n % 2 ^ 64 < 2 ^ 63 then (n % 2 ^ 64 : Nat) else (n % 2 ^ 64 : Nat) - 2 ^ 64

/-- `i as usize`. -/
def asUsize (i : Int) : Nat := (i % 2 ^ 64).toNat

/-- `a + b` on `usize`. -/
def usizeAdd (a b : Nat) : Nat := (a + b) % 2 ^ 64

/-- `a - b` on `usize`. -/
def usizeSub (a b : Nat) : Nat := (a + 2 ^ 64 - b) % 2 ^ 64

/-- `a * b` on `usize`. -/
def usizeMul (a b : Nat) : Nat := a * b % 2 ^ 64

/-- `a.saturating_add(b)` on `usize`. -/
def usizeSaturatingAdd (a b : Nat) : Nat := min (a + b) (2 ^ 64 - 1)

/-- `a.saturating_mul(b)` on `usize`. -/
def usizeSaturatingMul (a b : Nat) : Nat := min (a * b) (2 ^ 64 - 1)

/-- `a + b` on `isize`. -/
def isizeAdd (a b : Int) : Int := asIsize (asUsize (a + b))

/-- `a - b` on `isize`. -/
def isizeSub (a b : Int) : Int := asIsize (asUsize (a - b))

/-- `a.saturating_mul(b)` on `isize`. -/
def isizeSaturatingMul (a b : Int) : Int := max (-2 ^ 63) (min (a * b) (2 ^ 63 - 1))

/-- `a.checked_add(b)` on `usize`. -/
def usizeCheckedAdd (a b : Nat) : Option Nat := if a + b < 2 ^ 64 then some (a + b) else none

/-- `a - b` on `usize` with a check. -/
def checkedSub (a b : Nat) : Option Nat := if b ≤ a then some (a - b) else none

/-- `a.checked_sub(b)` on `isize`. -/
def isizeCheckedSub (a b : Int) : Option Int :=
  if -2 ^ 63 ≤ a - b ∧ a - b < 2 ^ 63 then some (a - b) else none

/-- `isize::try_from(n)`. -/
def isizeTryFrom (n : Nat) : Option Int := if n < 2 ^ 63 then some n else none

/-- `usize::try_from(i)`. -/
def usizeTryFrom (i : Int) : Option Nat := if 0 ≤ i ∧ i < 2 ^ 64 then some i.toNat else none

/-- A word below half of the address space is read as itself. -/
theorem asIsize_of_lt {n : Nat} (h : n < 2 ^ 63) : asIsize n = n := by
  have hn : n % 2 ^ 64 = n := Nat.mod_eq_of_lt (by omega)
  rw [asIsize, hn, if_pos h]

/-- A number that fits a word is its own word. -/
theorem asUsize_natCast {n : Nat} (h : n < 2 ^ 64) : asUsize n = n := by
  unfold asUsize
  omega

/-- A sum that fits a word does not wrap around. -/
theorem usizeAdd_of_lt {a b : Nat} (h : a + b < 2 ^ 64) : usizeAdd a b = a + b :=
  Nat.mod_eq_of_lt h

/-- A checked sum is there exactly when it fits a word. -/
theorem isSome_usizeCheckedAdd {a b : Nat} : (usizeCheckedAdd a b).isSome ↔ a + b < 2 ^ 64 := by
  unfold usizeCheckedAdd
  simp

/-- A checked difference is there when it is not negative. -/
theorem checkedSub_of_le {a b : Nat} (h : b ≤ a) : checkedSub a b = some (a - b) := if_pos h

/-- A difference is one that does not underflow. -/
theorem add_eq_of_checkedSub {a b c : Nat} (h : checkedSub a b = some c) : c + b = a := by
  unfold checkedSub at h
  split at h
  · have := Option.some.inj h
    omega
  · cases h

/-- The last offset of a stretch may be the last word. -/
theorem usizeSub_usizeAdd_one {a b : Nat} (hpos : 0 < b) (h : a + b ≤ 2 ^ 64) :
    usizeSub (usizeAdd a b) 1 = a + b - 1 := by
  unfold usizeSub usizeAdd
  omega

/-- A product that fits a word does not wrap around. -/
theorem usizeMul_of_lt {a b : Nat} (h : a * b < 2 ^ 64) : usizeMul a b = a * b :=
  Nat.mod_eq_of_lt h

/-- A sum that fits a word is not cut off. -/
theorem usizeSaturatingAdd_of_lt {a b : Nat} (h : a + b < 2 ^ 64) :
    usizeSaturatingAdd a b = a + b := by
  unfold usizeSaturatingAdd
  omega

/-- A product that fits a word is not cut off. -/
theorem usizeSaturatingMul_of_lt {a b : Nat} (h : a * b < 2 ^ 64) :
    usizeSaturatingMul a b = a * b := by
  unfold usizeSaturatingMul
  omega

/-- Numbers that are not negative are cut off at the top only. -/
theorem isizeSaturatingMul_natCast (a b : Nat) :
    isizeSaturatingMul a b = (min (a * b) (2 ^ 63 - 1) : Nat) := by
  have h : (a : Int) * b = (a * b : Nat) := by push_cast; rfl
  rw [isizeSaturatingMul, h]
  omega

/-- Moving back and forth through the unsigned word is the identity on small integers. -/
theorem asIsize_asUsize {i : Int} (hl : -2 ^ 63 ≤ i) (hu : i < 2 ^ 63) :
    asIsize (asUsize i) = i := by
  unfold asIsize asUsize
  split <;> omega

/-- A number just below the signed words wraps around once. -/
theorem asIsize_asUsize_below {i : Int} (hl : -2 ^ 63 - 2 ^ 64 ≤ i) (hu : i < -2 ^ 63) :
    asIsize (asUsize i) = i + 2 ^ 64 := by
  unfold asIsize asUsize
  split <;> omega

/-- So does one just above them. -/
theorem asIsize_asUsize_above {i : Int} (hl : 2 ^ 63 ≤ i) (hu : i < 2 ^ 63 + 2 ^ 64) :
    asIsize (asUsize i) = i - 2 ^ 64 := by
  unfold asIsize asUsize
  split <;> omega

/-- A word reduced in between does not change the result. -/
theorem asUsize_asIsize_add (i j : Int) :
    asUsize (asIsize (asUsize i) + j) = asUsize (i + j) := by
  unfold asIsize asUsize
  split <;> omega

/-- A difference and a sum wrap around as one. -/
theorem isizeAdd_isizeSub (a b c : Int) :
    isizeAdd (isizeSub a b) c = asIsize (asUsize (a - b + c)) := by
  rw [isizeAdd, isizeSub, asUsize_asIsize_add]

/-- So do a sum and a difference. -/
theorem isizeSub_isizeAdd (a b c : Int) :
    isizeSub (isizeAdd a b) c = asIsize (asUsize (a + b - c)) := by
  rw [isizeSub, isizeAdd, Int.sub_eq_add_neg, asUsize_asIsize_add, ← Int.sub_eq_add_neg]

/-- Words read as signed ones have the difference of the words. -/
theorem isizeSub_asIsize (a b : Nat) :
    isizeSub (asIsize a) (asIsize b) = asIsize (asUsize (a - b)) := by
  have h : asUsize (asIsize a - asIsize b) = asUsize (a - b) := by
    unfold asIsize asUsize
    omega
  rw [isizeSub, h]

private theorem isizeAdd_of_lt {a b : Int} (hl : -2 ^ 63 ≤ a + b) (hu : a + b < 2 ^ 63) :
    isizeAdd a b = a + b := asIsize_asUsize hl hu

/-- A difference that fits a signed word does not wrap around. -/
theorem isizeSub_of_lt {a b : Int} (hl : -2 ^ 63 ≤ a - b) (hu : a - b < 2 ^ 63) :
    isizeSub a b = a - b := asIsize_asUsize hl hu

/-- `(a as isize + b) as usize` is exact where the sum fits the signed word. -/
theorem asUsize_isizeAdd {a : Nat} {b : Int} (ha : a < 2 ^ 63) (hl : 0 ≤ a + b)
    (hu : a + b < 2 ^ 63) : (asUsize (isizeAdd (asIsize a) b) : Int) = a + b := by
  rw [asIsize_of_lt ha, isizeAdd_of_lt (by omega) hu, asUsize]
  omega

/-- `cmp::max(0, a as isize - b as isize) as usize` is truncated subtraction on values
that fit the signed word. -/
theorem asUsize_max_isizeSub {a b : Nat} (ha : a < 2 ^ 63) (hb : b < 2 ^ 63) :
    asUsize (max 0 (isizeSub (asIsize a) b)) = a - b := by
  rw [asIsize_of_lt ha, isizeSub_of_lt (by omega) (by omega)]
  have hm : max 0 ((a : Int) - b) = (a - b : Nat) := by omega
  rw [hm, asUsize_natCast (by omega)]

end Tofu
