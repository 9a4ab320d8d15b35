import Tofu.Base.Machine

/-!
# Keys, key maps and counts

The events of `crossterm` the editor looks at, `src/src/keymap.rs` and
`src/src/cmd_count.rs`. A key map is looked up with SHIFT cleared.
-/

namespace Tofu

/-- The key codes; `other` stands for those no map names. -/
inductive KeyCode where
  | backspace
  | enter
  | left
  | right
  | up
  | down
  | delete
  | esc
  | char (c : Char)
  | other (code : Nat)
  deriving DecidableEq, Repr

/-- The modifiers of a key that the editor looks at. -/
structure KeyModifiers where
  shift : Bool
  control : Bool
  alt : Bool
  deriving DecidableEq, Repr

namespace KeyModifiers

/-- No modifier. -/
def none : KeyModifiers := { shift := false, control := false, alt := false }

/-- `modifiers & !SHIFT`. -/
def withoutShift (m : KeyModifiers) : KeyModifiers := { m with shift := false }

/-- `KeyModifiers::is_empty`. -/
def isEmpty (m : KeyModifiers) : Bool := m == none

end KeyModifiers

/-- A key with its modifiers. -/
structure KeyEvent where
  code : KeyCode
  modifiers : KeyModifiers
  deriving DecidableEq, Repr

/-- The events the editor gets; what the mouse does is left out. -/
inductive Event where
  | key (evt : KeyEvent)
  | mouse
  | resize (width height : Nat)
  deriving DecidableEq, Repr

/-- The bindings of a mode, `keymap.rs:5–8`. -/
abbrev KeyMap (T : Type) := List (KeyEvent × T)

/-- `keymap.rs:11–22`. -/
def KeyMap.eventToAction {T : Type} (maps : KeyMap T) (evt : Event) : Option T :=
  match evt with
  | .key evt => maps.lookup { evt with modifiers := evt.modifiers.withoutShift }
  | _ => none

/-! The forms of a binding, `keymap.rs:41–70`. -/

/-- A character is bound to an action. -/
def onChar {T : Type} (ch : Char) (action : T) : KeyEvent × T :=
  ({ code := .char ch, modifiers := .none }, action)

/-- A character with Alt is bound to an action. -/
def onAlt {T : Type} (ch : Char) (action : T) : KeyEvent × T :=
  ({ code := .char ch, modifiers := { KeyModifiers.none with alt := true } }, action)

/-- A character with Ctrl is bound to an action. -/
def onCtrl {T : Type} (ch : Char) (action : T) : KeyEvent × T :=
  ({ code := .char ch, modifiers := { KeyModifiers.none with control := true } }, action)

/-- Another key is bound to an action. -/
def onKey {T : Type} (code : KeyCode) (action : T) : KeyEvent × T :=
  ({ code, modifiers := .none }, action)

/-- `ch.to_digit(16).unwrap() as u8` when `ch.is_ascii_hexdigit()`. -/
def hexDigit (ch : Char) : Option UInt8 :=
  if '0' ≤ ch ∧ ch ≤ '9' then some (ch.toNat - '0'.toNat).toUInt8
  else if 'a' ≤ ch ∧ ch ≤ 'f' then some (ch.toNat - 'a'.toNat + 10).toUInt8
  else if 'A' ≤ ch ∧ ch ≤ 'F' then some (ch.toNat - 'A'.toNat + 10).toUInt8
  else none

namespace CmdCount

/-- `cmd_count.rs:8–12`. -/
inductive State where
  | none
  | some (hex : Bool) (count : Nat)
  deriving DecidableEq, Repr

/-- `cmd_count.rs:14–20`. -/
inductive Action where
  | appendDigit (d : Nat)
  | cancelEntry
  | switchHexEntry
  | removeLast
  deriving DecidableEq, Repr

/-- `cmd_count.rs:22–46`. -/
def defaultMaps : KeyMap Action :=
  [onKey .esc .cancelEntry,
   onKey .backspace .removeLast,
   onChar 'x' .switchHexEntry,
   onChar '0' (.appendDigit 0),
   onChar '1' (.appendDigit 1),
   onChar '2' (.appendDigit 2),
   onChar '3' (.appendDigit 3),
   onChar '4' (.appendDigit 4),
   onChar '5' (.appendDigit 5),
   onChar '6' (.appendDigit 6),
   onChar '7' (.appendDigit 7),
   onChar '8' (.appendDigit 8),
   onChar '9' (.appendDigit 9),
   onChar 'a' (.appendDigit 10),
   onChar 'b' (.appendDigit 11),
   onChar 'c' (.appendDigit 12),
   onChar 'd' (.appendDigit 13),
   onChar 'e' (.appendDigit 14),
   onChar 'f' (.appendDigit 15)]

/-- What a key does to a count being typed, `cmd_count.rs:60–112`; `none` is `NotHandled`.
Shifting and multiplying a count drops what does not fit the word. -/
def State.apply : State → Action → Option State
  | .none, .appendDigit d => if d > 9 then .none else .some (.some false d)
  | .none, .cancelEntry => .none
  | .none, .switchHexEntry => .some (.some true 0)
  | .none, .removeLast => .none
  | .some true count, .appendDigit d => .some (.some true (usizeMul count 16 ||| d))
  | .some false count, .appendDigit d =>
    if d > 9 then .none else .some (.some false (usizeAdd (usizeMul count 10) d))
  | .some true count, .removeLast =>
    .some (if count ≥ 0x10 then .some true (count / 16) else .none)
  | .some false count, .removeLast =>
    .some (if count ≥ 10 then .some false (count / 10) else .none)
  | .some _ _, .cancelEntry => .some .none
  | .some hex count, .switchHexEntry => .some (.some (!hex) count)

/-- `cmd_count.rs:58–117`. -/
def State.transition (s : State) (event : Event) : Option State :=
  (defaultMaps.eventToAction event).bind s.apply

/-- `cmd_count.rs:119–124`. -/
def State.toCount : State → Nat
  | .some _ count => count
  | .none => 1

end CmdCount

end Tofu
