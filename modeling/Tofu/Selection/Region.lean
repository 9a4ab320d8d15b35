import Tofu.Base.Machine

/-!
# Selection regions

`src/src/selection.rs:198–459`. A region runs between its caret and its tail, both
included, and points forward when the caret is at or behind the tail. `none` is a Rust
panic. `simple_move` and `simple_extend` compute the new caret with the same code, and
so do the two boundary jumps; that code is `movedCaret` and `boundaryCaret` here.
-/

namespace Tofu

/-- `selection.rs:220–226`. -/
inductive Direction where
  | up
  | down
  | left
  | right
  deriving DecidableEq, Repr

/-- One selected stretch; `main` repeats that it is the main one, `selection.rs:198–206`. -/
structure SelRegion where
  caret : Nat
  tail : Nat
  main : Bool
  deriving DecidableEq, Repr

namespace SelRegion

/-- `selection.rs:229–235`: a fresh region is never the main one. -/
def new (caret tail : Nat) : SelRegion := { caret, tail, main := false }

/-- `selection.rs:237–239`. -/
def isMain (r : SelRegion) : Bool := r.main

/-- Last offset, `selection.rs:251–253`. -/
protected def max (r : SelRegion) : Nat := Max.max r.caret r.tail

/-- First offset, `selection.rs:255–257`. -/
protected def min (r : SelRegion) : Nat := Min.min r.caret r.tail

/-- `selection.rs:241–249`. -/
def withDirection (r : SelRegion) (backward : Bool) : SelRegion :=
  if backward then new r.min r.max else new r.max r.min

/-- Number of offsets, `selection.rs:259–261`. -/
def len (r : SelRegion) : Nat := r.max - r.min + 1

/-- Overlap with a region that does not start before this one, `selection.rs:263–265`. -/
def overlaps (r s : SelRegion) : Bool := decide (s.min ≤ r.max)

/-- The caret location of `simple_move` and `simple_extend`,
`selection.rs:278–287` and `:303–312`. -/
def movedCaret (direction : Direction) (bytesPerLine maxSize count oldCaret : Nat) : Nat :=
  match direction with
  | .up => asUsize (max 0 (isizeSub (asIsize oldCaret)
      (isizeSaturatingMul (asIsize bytesPerLine) (asIsize count))))
  | .down => min maxSize (usizeAdd oldCaret (usizeSaturatingMul bytesPerLine count))
  | .left => asUsize (max 0 (isizeSub (asIsize oldCaret) (asIsize count)))
  | .right => min maxSize (usizeAdd oldCaret count)

/-- `selection.rs:267–290`. -/
def simpleMove (r : SelRegion) (direction : Direction) (bytesPerLine maxSize count : Nat) :
    SelRegion :=
  if maxSize = 0 then r
  else
    let caretLocation := movedCaret direction bytesPerLine maxSize count r.caret
    new caretLocation caretLocation

/-- `selection.rs:292–314`. -/
def simpleExtend (r : SelRegion) (direction : Direction) (bytesPerLine maxSize count : Nat) :
    SelRegion :=
  if maxSize = 0 then r
  else new (movedCaret direction bytesPerLine maxSize count r.caret) r.tail

/-- `selection.rs:316–318`; the offset is not clamped. -/
def jumpTo (_r : SelRegion) (offset : Nat) : SelRegion := new offset offset

/-- `selection.rs:320–322`; the offset is not clamped. -/
def extendTo (r : SelRegion) (offset : Nat) : SelRegion := new offset r.tail

/-- The caret location of the boundary jumps, `selection.rs:334–342` and
`:356–364`. The view never passes zero bytes per line, on which `%` would panic. -/
def boundaryCaret (direction : Direction) (bytesPerLine maxSize caret : Nat) : Nat :=
  match direction with
  | .up => 0
  | .down => maxSize - 1
  | .left => caret - caret % bytesPerLine
  | .right => min (usizeSub (usizeSub (usizeAdd caret bytesPerLine) (caret % bytesPerLine)) 1)
      (maxSize - 1)

/-- `selection.rs:324–344`. -/
def jumpToBoundary (r : SelRegion) (direction : Direction) (bytesPerLine maxSize : Nat) :
    SelRegion :=
  if maxSize = 0 then r
  else
    let caretLocation := boundaryCaret direction bytesPerLine maxSize r.caret
    new caretLocation caretLocation

/-- `selection.rs:346–366`. -/
def extendToBoundary (r : SelRegion) (direction : Direction) (bytesPerLine maxSize : Nat) :
    SelRegion :=
  if maxSize = 0 then r
  else new (boundaryCaret direction bytesPerLine maxSize r.caret) r.tail

/-- `selection.rs:368–370`. -/
def swapCaret (r : SelRegion) : SelRegion := new r.tail r.caret

/-- `selection.rs:372–374`. -/
def collapse (r : SelRegion) : SelRegion := new r.caret r.caret

/-- A cursor points both ways, `selection.rs:376–378`. -/
def forward (r : SelRegion) : Bool := decide (r.tail ≤ r.caret)

/-- `selection.rs:380–382`. -/
def backward (r : SelRegion) : Bool := decide (r.caret ≤ r.tail)

/-- `selection.rs:384–386`. -/
def toBackward (r : SelRegion) : SelRegion := new r.min r.max

/-- `selection.rs:388–390`. -/
def toForward (r : SelRegion) : SelRegion := new r.max r.min

/-- Two overlapping regions become one, unless they are cursors at different offsets or
point different ways, `selection.rs:392–417`. -/
def merge (r s : SelRegion) : Option SelRegion :=
  let bothForward := r.forward && s.forward
  let bothBackward := r.backward && s.backward
  let merged :=
    match bothForward, bothBackward with
    | true, true => if r.caret = s.caret then some r else none
    | true, false => some (new (max r.caret s.caret) (min r.tail s.tail))
    | false, true => some (new (min r.caret s.caret) (max r.tail s.tail))
    | false, false => none
  merged.map fun m ↦ if r.main || s.main then { m with main := true } else m

/-- `selection.rs:419–425`. -/
def inheritDirection (r parent : SelRegion) : SelRegion :=
  if parent.forward then r.toForward else r.toBackward

/-- What is left of a region before and after `start..=stop`, `selection.rs:427–452`.
Only the last branch leaves out the direction of the divided region. -/
def splitAtRegion (r : SelRegion) (start stop : Nat) : Option SelRegion × Option SelRegion :=
  if start ≤ r.min then
    if r.max ≤ stop then (none, none)
    else (none, some ((new (stop + 1) r.max).inheritDirection r))
  else if r.max ≤ stop then (some ((new r.min (start - 1)).inheritDirection r), none)
  else (some (new r.min (start - 1)), some (new (stop + 1) r.max))

/-! ## Direction and extent -/

/-- The caret is strictly behind the tail. -/
def StrictForward (r : SelRegion) : Prop := r.tail < r.caret

/-- The caret is strictly before the tail. -/
def StrictBackward (r : SelRegion) : Prop := r.caret < r.tail

/-- Two regions of more than one offset that point different ways. -/
def Opposed (r s : SelRegion) : Prop :=
  (r.StrictForward ∧ s.StrictBackward) ∨ (r.StrictBackward ∧ s.StrictForward)

instance : DecidablePred StrictForward := fun r ↦ inferInstanceAs (Decidable (r.tail < r.caret))

instance : DecidablePred StrictBackward := fun r ↦ inferInstanceAs (Decidable (r.caret < r.tail))

instance : DecidableRel Opposed := fun r s ↦ inferInstanceAs (Decidable
  ((r.StrictForward ∧ s.StrictBackward) ∨ (r.StrictBackward ∧ s.StrictForward)))

/-- Caret and tail lie in a buffer of length `n` or just behind it. -/
def InBounds (n : Nat) (r : SelRegion) : Prop := r.caret ≤ n ∧ r.tail ≤ n

instance (n : Nat) : DecidablePred (InBounds n) :=
  fun r ↦ inferInstanceAs (Decidable (r.caret ≤ n ∧ r.tail ≤ n))

/-- The caret is the first offset given. -/
@[simp] theorem caret_new (c t : Nat) : (new c t).caret = c := rfl

/-- The tail is the second one. -/
@[simp] theorem tail_new (c t : Nat) : (new c t).tail = t := rfl

/-- A new region is not the main one. -/
@[simp] theorem main_new (c t : Nat) : (new c t).main = false := rfl

/-- It ends at the larger of the two. -/
@[simp] theorem max_new (c t : Nat) : (new c t).max = max c t := rfl

/-- It starts at the smaller of the two. -/
@[simp] theorem min_new (c t : Nat) : (new c t).min = min c t := rfl

/-- A region has at least one offset. -/
theorem min_le_max (r : SelRegion) : r.min ≤ r.max := by
  unfold SelRegion.min SelRegion.max
  omega

/-- The caret is not behind the region. -/
theorem caret_le_max (r : SelRegion) : r.caret ≤ r.max := Nat.le_max_left _ _

/-- The tail is not behind it. -/
theorem tail_le_max (r : SelRegion) : r.tail ≤ r.max := Nat.le_max_right _ _

/-- The caret is not before the region. -/
theorem min_le_caret (r : SelRegion) : r.min ≤ r.caret := Nat.min_le_left _ _

/-- The tail is not before it. -/
theorem min_le_tail (r : SelRegion) : r.min ≤ r.tail := Nat.min_le_right _ _

/-- Unless a region points backward, its caret is at its end. -/
theorem caret_eq_max {r : SelRegion} (h : ¬ r.StrictBackward) : r.caret = r.max :=
  (Nat.max_eq_left (Nat.not_lt.mp h)).symm

/-- Unless a region points forward, its caret is at its start. -/
theorem caret_eq_min {r : SelRegion} (h : ¬ r.StrictForward) : r.caret = r.min :=
  (Nat.min_eq_left (Nat.not_lt.mp h)).symm

/-- The tail of a region that points forward is at its start. -/
theorem tail_eq_min {r : SelRegion} (h : r.StrictForward) : r.tail = r.min :=
  (Nat.min_eq_right (Nat.le_of_lt h)).symm

/-- A region is within the data when its end is. -/
theorem inBounds_iff_max_le (n : Nat) (r : SelRegion) : r.InBounds n ↔ r.max ≤ n := by
  unfold InBounds SelRegion.max
  omega

/-- What is within the data is within longer data. -/
theorem InBounds.mono {n m : Nat} {r : SelRegion} (h : r.InBounds n) (hnm : n ≤ m) :
    r.InBounds m := ⟨Nat.le_trans h.1 hnm, Nat.le_trans h.2 hnm⟩

/-- Changing the main flag moves nothing. -/
theorem max_setMain (r : SelRegion) (b : Bool) : { r with main := b }.max = r.max := rfl

/-- The main flag does not move a region. -/
theorem min_setMain (r : SelRegion) (b : Bool) : { r with main := b }.min = r.min := rfl

/-! ## Merging -/

/-- What the merge of two regions is when it does not panic. -/
structure IsMerge (r s m : SelRegion) : Prop where
  max_eq : m.max = max r.max s.max
  min_eq : m.min = min r.min s.min
  main_eq : m.main = (r.main || s.main)
  strictForward_iff : m.StrictForward ↔ r.StrictForward ∨ s.StrictForward
  strictBackward_iff : m.StrictBackward ↔ r.StrictBackward ∨ s.StrictBackward

private theorem both_forward_iff (r s : SelRegion) :
    (r.forward && s.forward) = true ↔ r.tail ≤ r.caret ∧ s.tail ≤ s.caret := by
  simp [forward]

private theorem both_backward_iff (r s : SelRegion) :
    (r.backward && s.backward) = true ↔ r.caret ≤ r.tail ∧ s.caret ≤ s.tail := by
  simp [backward]

private theorem isMerge_setMain {r s m : SelRegion}
    (h : IsMerge r s { m with main := r.main || s.main }) (hm : m.main = (r.main && m.main)) :
    IsMerge r s (if r.main || s.main then { m with main := true } else m) := by
  cases hb : r.main || s.main with
  | true => rwa [hb] at h
  | false =>
    have hr : m.main = false := by rw [hm, (Bool.or_eq_false_iff.mp hb).1, Bool.false_and]
    rw [hb, ← hr] at h
    exact h

/-- A merge covers both regions, keeps the main flag and points the way they do. -/
theorem isMerge_of_merge {r s m : SelRegion} (h : r.merge s = some m) : IsMerge r s m := by
  unfold merge at h
  cases hf : r.forward && s.forward <;> cases hb : r.backward && s.backward <;>
    simp only [hf, hb, Option.map_none, Option.map_some, Option.some.injEq, reduceCtorEq] at h
  · obtain ⟨hr, hs⟩ := (both_backward_iff r s).mp hb
    have hn : ¬ (r.tail ≤ r.caret ∧ s.tail ≤ s.caret) := fun hc ↦ by
      simp [(both_forward_iff r s).mpr hc] at hf
    subst h
    refine isMerge_setMain ⟨?_, ?_, rfl, ?_, ?_⟩ (by simp) <;>
      simp only [SelRegion.max, SelRegion.min, StrictForward, StrictBackward, new] <;> omega
  · obtain ⟨hr, hs⟩ := (both_forward_iff r s).mp hf
    have hn : ¬ (r.caret ≤ r.tail ∧ s.caret ≤ s.tail) := fun hc ↦ by
      simp [(both_backward_iff r s).mpr hc] at hb
    subst h
    refine isMerge_setMain ⟨?_, ?_, rfl, ?_, ?_⟩ (by simp) <;>
      simp only [SelRegion.max, SelRegion.min, StrictForward, StrictBackward, new] <;> omega
  · obtain ⟨hr, hs⟩ := (both_forward_iff r s).mp hf
    obtain ⟨hr', hs'⟩ := (both_backward_iff r s).mp hb
    by_cases hc : r.caret = s.caret
    · simp only [if_pos hc, Option.map_some, Option.some.injEq] at h
      subst h
      refine isMerge_setMain ⟨?_, ?_, rfl, ?_, ?_⟩ (by simp) <;>
        simp only [SelRegion.max, SelRegion.min, StrictForward, StrictBackward] <;> omega
    · simp [if_neg hc] at h

/-- Merging panics on opposed regions and on two cursors at different offsets. -/
theorem merge_eq_none_iff (r s : SelRegion) :
    r.merge s = none ↔
      r.Opposed s ∨ (r.caret = r.tail ∧ s.caret = s.tail ∧ r.caret ≠ s.caret) := by
  have hf := both_forward_iff r s
  have hb := both_backward_iff r s
  unfold merge Opposed StrictForward StrictBackward
  cases hf' : r.forward && s.forward <;> cases hb' : r.backward && s.backward <;>
    simp only [hf', hb', Bool.false_eq_true, false_iff, true_iff, Option.map_none, Option.map_some,
      reduceCtorEq] at hf hb ⊢
  · omega
  · omega
  · omega
  · by_cases hc : r.caret = s.caret
    · simp only [if_pos hc, Option.map_some, reduceCtorEq, false_iff]
      omega
    · simp only [if_neg hc, Option.map_none, true_iff]
      omega

/-! ## Caret movement -/

/-- Up by whole lines, stopping at the start of the data. -/
theorem movedCaret_up {bytesPerLine count c : Nat} (maxSize : Nat) (hb : bytesPerLine < 2 ^ 63)
    (hn : count < 2 ^ 63) (hc : c < 2 ^ 63) :
    movedCaret .up bytesPerLine maxSize count c = c - bytesPerLine * count := by
  simp only [movedCaret]
  rw [asIsize_of_lt hb, asIsize_of_lt hn, isizeSaturatingMul_natCast,
    asUsize_max_isizeSub hc (by omega)]
  omega

/-- Left by so many bytes, stopping at the start of the data. -/
theorem movedCaret_left {count c : Nat} (bytesPerLine maxSize : Nat) (hn : count < 2 ^ 63)
    (hc : c < 2 ^ 63) : movedCaret .left bytesPerLine maxSize count c = c - count := by
  simp only [movedCaret]
  rw [asIsize_of_lt hn, asUsize_max_isizeSub hc hn]

/-- Up by one line of any length: one beyond the signed word is taken for a negative number. -/
theorem movedCaret_up_one {bytesPerLine c : Nat} (maxSize : Nat) (hb : bytesPerLine < 2 ^ 64)
    (hc : c < 2 ^ 63) :
    movedCaret .up bytesPerLine maxSize 1 c =
      if bytesPerLine < 2 ^ 63 then c - bytesPerLine
      else if c + (2 ^ 64 - bytesPerLine) < 2 ^ 63 then c + (2 ^ 64 - bytesPerLine) else 0 := by
  split
  · next h => rw [movedCaret_up maxSize h (by omega) hc, Nat.mul_one]
  · next h =>
    have hline : asIsize bytesPerLine = (bytesPerLine : Int) - 2 ^ 64 := by
      rw [asIsize, Nat.mod_eq_of_lt hb, if_neg h]
    have hone : asIsize 1 = 1 := rfl
    have hsat : isizeSaturatingMul ((bytesPerLine : Int) - 2 ^ 64) 1 = bytesPerLine - 2 ^ 64 := by
      rw [isizeSaturatingMul, Int.mul_one]
      omega
    simp only [movedCaret]
    rw [hline, hone, hsat, asIsize_of_lt hc]
    split
    · next hlt =>
      have hsum : max 0 ((c : Int) - (bytesPerLine - 2 ^ 64)) =
          ((c + (2 ^ 64 - bytesPerLine) : Nat) : Int) := by
        omega
      rw [isizeSub_of_lt (by omega) (by omega), hsum, asUsize_natCast (by omega)]
    · next hge =>
      -- the difference wraps around to a negative number
      have hneg : isizeSub c ((bytesPerLine : Int) - 2 ^ 64) = c - bytesPerLine := by
        rw [isizeSub, show (c : Int) - (bytesPerLine - 2 ^ 64) = c - bytesPerLine + 2 ^ 64 by omega,
          asUsize, Int.add_emod_right]
        exact asIsize_asUsize (by omega) (by omega)
      rw [hneg, Int.max_eq_left (by omega)]
      rfl

/-- A count that the caret arithmetic of a direction can take without changing sign or
wrapping around, for carets up to `bound`. -/
def CountFits (direction : Direction) (bytesPerLine count bound : Nat) : Prop :=
  match direction with
  | .up => bytesPerLine < 2 ^ 63 ∧ count < 2 ^ 63 ∧ bound < 2 ^ 63
  | .down => bound + bytesPerLine * count < 2 ^ 64
  | .left => count < 2 ^ 63 ∧ bound < 2 ^ 63
  | .right => bound + count < 2 ^ 64

instance (direction : Direction) (bytesPerLine count bound : Nat) :
    Decidable (CountFits direction bytesPerLine count bound) :=
  match direction with
  | .up => inferInstanceAs (Decidable (_ ∧ _ ∧ _))
  | .down => inferInstanceAs (Decidable (_ < _))
  | .left => inferInstanceAs (Decidable (_ ∧ _))
  | .right => inferInstanceAs (Decidable (_ < _))

/-- Movement keeps the order of carets. -/
theorem movedCaret_mono {direction : Direction} {bytesPerLine count c c' : Nat} (maxSize : Nat)
    (hf : CountFits direction bytesPerLine count c') (h : c ≤ c') :
    movedCaret direction bytesPerLine maxSize count c ≤
      movedCaret direction bytesPerLine maxSize count c' := by
  cases direction with
  | up =>
    obtain ⟨hb, hn, hc⟩ := hf
    rw [movedCaret_up maxSize hb hn hc, movedCaret_up maxSize hb hn (by omega)]
    omega
  | down =>
    have hf : c' + bytesPerLine * count < 2 ^ 64 := hf
    simp only [movedCaret]
    rw [usizeSaturatingMul_of_lt (by omega), usizeAdd_of_lt hf, usizeAdd_of_lt (by omega)]
    omega
  | left =>
    obtain ⟨hn, hc⟩ := hf
    rw [movedCaret_left bytesPerLine maxSize hn hc,
      movedCaret_left bytesPerLine maxSize hn (by omega)]
    omega
  | right =>
    have hf : c' + count < 2 ^ 64 := hf
    simp only [movedCaret]
    rw [usizeAdd_of_lt hf, usizeAdd_of_lt (by omega)]
    omega

/-- Movement stays in the buffer, even where the arithmetic of `down` and `right` wraps. -/
theorem movedCaret_le {direction : Direction} {bytesPerLine maxSize count c : Nat}
    (hf : direction = .up ∨ direction = .left →
      bytesPerLine < 2 ^ 63 ∧ count < 2 ^ 63 ∧ maxSize < 2 ^ 63) (h : c ≤ maxSize) :
    movedCaret direction bytesPerLine maxSize count c ≤ maxSize := by
  cases direction with
  | up =>
    obtain ⟨hb, hn, hm⟩ := hf (.inl rfl)
    rw [movedCaret_up maxSize hb hn (by omega)]
    omega
  | left =>
    obtain ⟨hb, hn, hm⟩ := hf (.inr rfl)
    rw [movedCaret_left bytesPerLine maxSize hn (by omega)]
    omega
  | down => exact Nat.min_le_left _ _
  | right => exact Nat.min_le_left _ _

private theorem sub_mod_le_sub_mod {c c' : Nat} (b : Nat) (h : c ≤ c') :
    c - c % b ≤ c' - c' % b := by
  have hc : c - c % b = b * (c / b) := by have := Nat.div_add_mod c b; omega
  have hc' : c' - c' % b = b * (c' / b) := by have := Nat.div_add_mod c' b; omega
  rw [hc, hc']
  exact Nat.mul_le_mul_left b (Nat.div_le_div_right h)

/-- The end of a line is computed without wrapping around, for carets up to `bound`. -/
def LineFits (direction : Direction) (bytesPerLine bound : Nat) : Prop :=
  direction = .right → bound + bytesPerLine < 2 ^ 64

instance (direction : Direction) (bytesPerLine bound : Nat) :
    Decidable (LineFits direction bytesPerLine bound) :=
  inferInstanceAs (Decidable (_ → _))

/-- The last offset of the line, in the natural numbers. -/
theorem boundaryCaret_right {bytesPerLine caret : Nat} (maxSize : Nat) (hb : 1 ≤ bytesPerLine)
    (hc : caret + bytesPerLine < 2 ^ 64) :
    boundaryCaret .right bytesPerLine maxSize caret =
      min (caret + bytesPerLine - caret % bytesPerLine - 1) (maxSize - 1) := by
  have hmod := Nat.mod_lt caret hb
  simp only [boundaryCaret, usizeSub, usizeAdd]
  omega

/-- Boundary jumps keep the order of carets. -/
theorem boundaryCaret_mono {direction : Direction} {bytesPerLine c c' : Nat} (maxSize : Nat)
    (hf : LineFits direction bytesPerLine c') (h : c ≤ c') :
    boundaryCaret direction bytesPerLine maxSize c ≤
      boundaryCaret direction bytesPerLine maxSize c' := by
  have hs := sub_mod_le_sub_mod bytesPerLine h
  have hc := Nat.mod_le c bytesPerLine
  have hc' := Nat.mod_le c' bytesPerLine
  cases direction with
  | up | down => exact Nat.le_refl _
  | left => exact hs
  | right =>
    have hf := hf rfl
    rcases Nat.eq_zero_or_pos bytesPerLine with rfl | hb
    · simp only [boundaryCaret, Nat.mod_zero, Nat.add_zero, usizeSub, usizeAdd]
      omega
    · rw [boundaryCaret_right maxSize hb hf, boundaryCaret_right maxSize hb (by omega)]
      omega

/-- Boundary jumps stay in the buffer. -/
theorem boundaryCaret_le {c : Nat} (direction : Direction) (bytesPerLine maxSize : Nat)
    (h : c ≤ maxSize) : boundaryCaret direction bytesPerLine maxSize c ≤ maxSize := by
  cases direction <;> simp only [boundaryCaret] <;> omega

end SelRegion

end Tofu
