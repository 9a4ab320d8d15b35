import Mathlib.Data.Nat.Digits.Defs
import Tofu.Base.Run
import Tofu.Modes.Event

/-!
# Typing a count

The state machine of `src/src/cmd_count.rs:58–117` against the numeral that is typed. A
digit is appended with a multiplication or a shift that drops what does not fit the word,
and the key map has the lower-case hexadecimal digits only.
-/

namespace Tofu

namespace CmdCount

/-- A key with no modifier but SHIFT. -/
def plainKey (code : KeyCode) (shift : Bool) : Event :=
  .key { code, modifiers := { KeyModifiers.none with shift } }

/-- One key of a count; `none` is a key that is not handled. -/
def State.press (key : KeyCode × Bool) (s : State) : Option State :=
  s.transition (plainKey key.1 key.2)

/-- Digits are hexadecimal or decimal. -/
def base (hex : Bool) : Nat := if hex then 16 else 10

/-- What a digit counts. -/
def digitValue (c : Char) : Nat := ((hexDigit c).map UInt8.toNat).getD 0

/-- The character is a digit of the base, of either case. -/
def IsDigit (hex : Bool) (c : Char) : Prop := (hexDigit c).isSome ∧ digitValue c < base hex

instance (hex : Bool) : DecidablePred (IsDigit hex) :=
  fun _ ↦ inferInstanceAs (Decidable (_ ∧ _))

/-- The value of a numeral, the first digit being the highest. -/
def numeral (hex : Bool) (digits : List Char) : Nat :=
  Nat.ofDigits (base hex) (digits.map digitValue).reverse

/-- Digits typed with and without SHIFT. -/
def digitKeys (digits : List (Char × Bool)) : List (KeyCode × Bool) :=
  digits.map fun digit ↦ (.char digit.1, digit.2)

/-- The keys of a count: `x` comes before hexadecimal digits. -/
def entryKeys (hex shift : Bool) (digits : List (Char × Bool)) : List (KeyCode × Bool) :=
  (if hex then [(.char 'x', shift)] else []) ++ digitKeys digits

/-! ## One key -/

private theorem lookup_ascii : ∀ n < 128, ∀ shift, (hexDigit (Char.ofNat n)).isSome →
    defaultMaps.eventToAction (plainKey (.char (Char.ofNat n)) shift) =
      if (Char.ofNat n).isUpper then none
      else some (.appendDigit (digitValue (Char.ofNat n))) := by
  decide

private theorem toNat_lt_of_isSome {c : Char} (h : (hexDigit c).isSome) : c.toNat < 128 := by
  have hle : ∀ {a b : Char}, a ≤ b ↔ a.toNat ≤ b.toNat := Iff.rfl
  by_contra hn
  rw [hexDigit, if_neg (by rw [hle, hle]; simp; omega), if_neg (by rw [hle, hle]; simp; omega),
    if_neg (by rw [hle, hle]; simp; omega)] at h
  simp at h

/-- The digits the key map binds are those that are no upper-case letter. -/
theorem eventToAction_digit {c : Char} (h : (hexDigit c).isSome) (shift : Bool) :
    defaultMaps.eventToAction (plainKey (.char c) shift) =
      if c.isUpper then none else some (.appendDigit (digitValue c)) := by
  have := lookup_ascii c.toNat (toNat_lt_of_isSome h) shift
  rw [Char.ofNat_toNat] at this
  exact this h

private theorem press_upper {c : Char} (h : (hexDigit c).isSome) (hu : c.isUpper = true)
    (shift : Bool)
    (s : State) : s.press (.char c, shift) = none := by
  rw [State.press, State.transition, eventToAction_digit h, if_pos hu, Option.bind_none]

private theorem or_digit {n d : Nat} (hd : d < 16) :
    usizeMul n 16 ||| d = (16 * n + d) % 2 ^ 64 := by
  have hshift : usizeMul n 16 = 2 ^ 4 * (n % 2 ^ 60) := by
    unfold usizeMul
    omega
  rw [hshift, ← Nat.two_pow_add_eq_or_of_lt (i := 4) hd]
  omega

/-- A digit is appended in the word. -/
theorem press_digit {hex : Bool} {c : Char} (h : IsDigit hex c) (hu : c.isUpper = false)
    (shift : Bool) (n : Nat) :
    (State.some hex (n % 2 ^ 64)).press (.char c, shift) =
      some (.some hex ((base hex * n + digitValue c) % 2 ^ 64)) := by
  have hd : digitValue c < base hex := h.2
  rw [State.press, State.transition, eventToAction_digit h.1, hu, if_neg (by simp),
    Option.bind_some]
  cases hex with
  | true =>
    simp only [base, if_pos] at hd
    simp only [State.apply, or_digit hd, base, if_pos]
    congr 2
    omega
  | false =>
    simp only [base, Bool.false_eq_true, if_false] at hd
    simp only [State.apply, if_neg (show ¬ digitValue c > 9 by omega), usizeAdd, usizeMul, base,
      Bool.false_eq_true, if_false]
    congr 2
    omega

/-- The first decimal digit is appended to no digits. -/
theorem press_first {c : Char} (h : IsDigit false c) (hu : c.isUpper = false) (shift : Bool) :
    State.none.press (.char c, shift) = (State.some false 0).press (.char c, shift) := by
  have hd : digitValue c < 10 := h.2
  simp only [State.press, State.transition, eventToAction_digit h.1, hu, Bool.false_eq_true,
    if_false, Option.bind_some, State.apply, if_neg (show ¬ digitValue c > 9 by omega), usizeAdd,
    usizeMul]
  congr 2
  omega

private theorem press_backspace (hex : Bool) (n : Nat) (shift : Bool) :
    (State.some hex n).press (.backspace, shift) =
      some (if base hex ≤ n then .some hex (n / base hex) else .none) := by
  cases shift <;> cases hex <;> rfl

/-! ## A whole numeral -/

private theorem numeral_concat (hex : Bool) (digits : List Char) (c : Char) :
    numeral hex (digits ++ [c]) = base hex * numeral hex digits + digitValue c := by
  rw [numeral, List.map_append, List.reverse_append, List.map_singleton, List.reverse_singleton,
    List.singleton_append, Nat.ofDigits_cons, Nat.add_comm]
  rfl

variable {hex : Bool} {digits : List (Char × Bool)}

/-- The digits typed behind an empty numeral give its value in the word. -/
theorem press_digits (hd : ∀ digit ∈ digits, IsDigit hex digit.1)
    (hu : ∀ digit ∈ digits, digit.1.isUpper = false) :
    runSteps State.press (digitKeys digits) (.some hex 0) =
      some (.some hex (numeral hex (digits.map Prod.fst) % 2 ^ 64)) := by
  induction digits using List.reverseRecOn with
  | nil => rfl
  | append_singleton digits digit ih =>
    have hrun := ih (fun k hk ↦ hd k (by simp [hk])) fun k hk ↦ hu k (by simp [hk])
    rw [digitKeys, List.map_append, List.map_append, runSteps_append, ← digitKeys, hrun,
      Option.bind_some, List.map_singleton, List.map_singleton, runSteps_cons,
      press_digit (hd digit (by simp)) (hu digit (by simp)), Option.bind_some, runSteps_nil,
      numeral_concat]

/-- From no count, `x` or the first decimal digit starts the numeral. -/
theorem press_entry (shift : Bool) (hne : hex = false → digits ≠ [])
    (hd : ∀ digit ∈ digits, IsDigit hex digit.1)
    (hu : ∀ digit ∈ digits, digit.1.isUpper = false) :
    runSteps State.press (entryKeys hex shift digits) .none =
      some (.some hex (numeral hex (digits.map Prod.fst) % 2 ^ 64)) := by
  rw [← press_digits hd hu]
  cases hex with
  | true => cases shift <;> rfl
  | false =>
    cases digits with
    | nil => exact absurd rfl (hne rfl)
    | cons digit digits =>
      change (State.none.press (.char digit.1, digit.2)).bind _ = _
      rw [press_first (hd digit (by simp)) (hu digit (by simp))]
      rfl

/-- The state holds the numeral that was typed, and Backspace takes its last digit away,
exactly when the value fits the word and no digit is an upper-case letter. -/
theorem count_entry_iff (shift : Bool) (hne : hex = false → digits ≠ [])
    (hd : ∀ digit ∈ digits, IsDigit hex digit.1) :
    (runSteps State.press (entryKeys hex shift digits) .none =
        some (.some hex (numeral hex (digits.map Prod.fst))) ∧
      ∀ shift', runSteps State.press (entryKeys hex shift digits ++ [(.backspace, shift')]) .none =
        some (if base hex ≤ numeral hex (digits.map Prod.fst) then
          .some hex (numeral hex (digits.map Prod.fst) / base hex) else .none)) ↔
      numeral hex (digits.map Prod.fst) < 2 ^ 64 ∧
        ∀ digit ∈ digits, digit.1.isUpper = false := by
  constructor
  · rintro ⟨hrun, -⟩
    have hu : ∀ digit ∈ digits, digit.1.isUpper = false := by
      intro digit hdigit
      by_contra hupper
      have hkey : (KeyCode.char digit.1, digit.2) ∈ entryKeys hex shift digits :=
        List.mem_append_right _ (List.mem_map.mpr ⟨digit, hdigit, rfl⟩)
      have hnone := runSteps_eq_none hkey
        (press_upper (hd digit hdigit).1 (Bool.not_eq_false _ ▸ hupper) digit.2) .none
      rw [hnone] at hrun
      simp at hrun
    rw [press_entry shift hne hd hu, Option.some.injEq, State.some.injEq] at hrun
    have := Nat.mod_lt (numeral hex (digits.map Prod.fst)) (show 0 < 2 ^ 64 by decide)
    exact ⟨by omega, hu⟩
  · rintro ⟨hlt, hu⟩
    have hrun := press_entry shift hne hd hu
    rw [Nat.mod_eq_of_lt hlt] at hrun
    refine ⟨hrun, fun shift' ↦ ?_⟩
    rw [runSteps_append, hrun, Option.bind_some, runSteps_cons, press_backspace, Option.bind_some,
      runSteps_nil]

/-- `x2a`, then Backspace. -/
theorem count_entry_x2a :
    runSteps State.press (entryKeys true false [('2', false), ('a', false)]) .none =
        some (.some true 42) ∧
      runSteps State.press
        (entryKeys true false [('2', false), ('a', false)] ++ [(.backspace, false)]) .none =
          some (.some true 2) := by
  have h := (@count_entry_iff true [('2', false), ('a', false)] false (by decide)
    (by decide)).mpr (by decide)
  exact ⟨h.1, h.2 false⟩

/-- Twenty nines wrap around, seventeen hexadecimal digits lose the first one, and an
upper-case digit is not handled. -/
theorem count_entry_wraps :
    runSteps State.press (entryKeys false false (List.replicate 20 ('9', false))) .none =
        some (.some false (99999999999999999999 - 5 * 2 ^ 64)) ∧
      runSteps State.press
        (entryKeys true false (('1', false) :: List.replicate 16 ('0', false))) .none =
          some (.some true 0) ∧
      runSteps State.press (entryKeys true false [('A', true)]) .none = none := by
  decide

end CmdCount

end Tofu
