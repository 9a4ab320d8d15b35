import Tofu.Modes.Mode
import Tofu.Ops.Clash

/-!
# Insertion modes

`src/src/modes/insert.rs`. Every key edits at all carets at once, with a delta that stays
pending until the mode is left. The half byte of a hex digit is inserted at once and the
carets set back onto it, so that the next digit replaces it.
-/

namespace Tofu

open Rope

variable {X : XiRope UInt8}

namespace Insert

/-- `insert.rs:30–38`. -/
inductive Action where
  | insertNull
  | switchInputMode
  | removeLast
  | removeThis
  | exit
  | move (direction : Direction)
  deriving DecidableEq, Repr

/-- `insert.rs:40–54`. -/
def defaultMaps : KeyMap Action :=
  [onCtrl 'n' .insertNull,
   onCtrl 'o' .switchInputMode,
   onKey .backspace .removeLast,
   onKey .delete .removeThis,
   onKey .esc .exit,
   onKey .right (.move .right),
   onKey .left (.move .left),
   onKey .up (.move .up),
   onKey .down (.move .down)]

/-- `insert.rs:60–78`: the character in UTF-8. -/
def transitionAsciiInsertion (key : Char) (b : CurrentBuffer X) (mode : InsertionMode) :
    Outcome X :=
  let insertedBytes := String.utf8EncodeChar key
  match mode with
  | .append | .insert =>
    .dirty ((Ops.insert X b.data b.selection insertedBytes).bind b.applyIncompleteDelta)
  | .overwrite =>
    .dirty ((Ops.change X b.data b.selection insertedBytes).bind b.applyIncompleteDelta)

/-- The edit of a hex digit, `insert.rs:90–128`. -/
def hexInsertion (digit : UInt8) (b : CurrentBuffer X) (mode : InsertionMode)
    (hexHalf : Option UInt8) : Outcome X :=
  match hexHalf with
  | some half =>
    .modeAndDirty (.insert { mode, hex := true, hexHalf := none })
      ((Ops.change X b.data b.selection [half ||| digit]).bind b.applyIncompleteDelta)
  | none =>
    let toInsert := digit <<< 4
    let delta :=
      match mode with
      | .append | .insert => Ops.insert X b.data b.selection [toInsert]
      | .overwrite => Ops.overwriteHalf X b.data b.selection toInsert
    .modeAndDirty (.insert { mode, hex := true, hexHalf := some toInsert })
      (delta.bind fun delta ↦ b.applyIncompleteDeltaOffsetCarets delta (-1) 0)

/-- `insert.rs:80–130`. -/
def transitionHexInsertion (key : Char) (b : CurrentBuffer X) (mode : InsertionMode)
    (hexHalf : Option UInt8) : Outcome X :=
  match hexDigit key with
  | none => .unhandled
  | some digit => hexInsertion digit b mode hexHalf

/-- Moving the carets away from a half byte first types a zero after it; what that
transition hands back is dropped, `insert.rs:206–210`. -/
def finishHalf (m : Insert) (b : CurrentBuffer X) : Option (CurrentBuffer X) :=
  if m.hexHalf.isSome then
    (transitionHexInsertion '0' b m.mode m.hexHalf).map fun
      | some (_, b') => b'
      | none => b
  else some b

/-- The closure of a caret movement, `insert.rs:218–230`. -/
def moved (direction : Direction) (bytesPerLine maxBytes : Nat) (isHexHalf : Bool)
    (region : SelRegion) : SelRegion :=
  let region := region.simpleMove direction bytesPerLine maxBytes 1
  if isHexHalf then region.simpleMove .left bytesPerLine maxBytes 1 else region

/-- The bound keys, `insert.rs:154–233`. -/
def act (m : Insert) (action : Action) (b : CurrentBuffer X) (bytesPerLine : Nat) : Outcome X :=
  let newState := { m with hexHalf := none }
  match action with
  | .exit => .keep b.commitDelta (.newMode (.normal .new))
  | .insertNull =>
    .modeAndDirty (.insert newState)
      ((Ops.insert X b.data b.selection [0]).bind b.applyIncompleteDelta)
  | .switchInputMode => .keep b (.newMode (.insert { m with hex := !m.hex, hexHalf := none }))
  | .removeLast =>
    if b.data = [] then .keep b .none
    else if m.hexHalf.isSome then
      .modeAndDirty (.insert newState)
        ((Ops.deleteCursor X b.data b.selection).bind b.applyIncompleteDelta)
    else .dirty ((Ops.backspace X b.data b.selection).bind b.applyIncompleteDelta)
  | .removeThis =>
    if b.data = [] then .keep b .none
    else if m.hexHalf.isSome then
      .modeAndDirty (.insert newState)
        ((Ops.deleteCursor X b.data b.selection).bind b.applyIncompleteDelta)
    else .dirty ((Ops.deleteCursor X b.data b.selection).bind b.applyIncompleteDelta)
  | .move direction =>
    .modeAndDirty (.insert newState) do
      let b ← m.finishHalf b
      b.mapSelections (Selection.pureClosure fun region ↦
        [moved direction bytesPerLine b.data.length m.hexHalf.isSome region]) ()

/-- `insert.rs:148–251`. -/
def transition (m : Insert) (evt : Event) (b : CurrentBuffer X) (bytesPerLine : Nat) :
    Outcome X :=
  match defaultMaps.eventToAction evt with
  | some action => m.act action b bytesPerLine
  | none =>
    match evt with
    | .key { code := .char key, modifiers } =>
      if !modifiers.withoutShift.isEmpty then .unhandled
      else if m.hex then transitionHexInsertion key b m.mode m.hexHalf
      else transitionAsciiInsertion key b m.mode
    | _ => .unhandled

end Insert

end Tofu
