import Tofu.Modes.Search
import Tofu.Ops.Operations

/-!
# Normal mode and the modes it opens

`src/src/modes/normal.rs`, `jumpto.rs`, `split.rs` and `replace.rs`.
-/

namespace Tofu

open Rope Selection

variable {X : XiRope UInt8}

/-! ## Jumping to a boundary -/

namespace JumpTo

/-- `jumpto.rs:20–33`. -/
def defaultMaps : KeyMap Direction :=
  [onKey .left .left,
   onChar 'h' .left,
   onKey .down .down,
   onChar 'j' .down,
   onKey .up .up,
   onChar 'k' .up,
   onKey .right .right,
   onChar 'l' .right]

/-- The closure of a boundary jump, `jumpto.rs:60–68`. -/
def moved (m : JumpTo) (direction : Direction) (bytesPerLine maxBytes : Nat)
    (region : SelRegion) : SelRegion :=
  if m.extend then region.extendToBoundary direction bytesPerLine maxBytes
  else region.jumpToBoundary direction bytesPerLine maxBytes

/-- `jumpto.rs:48–74`. -/
def transition (m : JumpTo) (evt : Event) (b : CurrentBuffer X) (bytesPerLine : Nat) :
    Outcome X :=
  match defaultMaps.eventToAction evt with
  | some direction =>
    .modeAndDirty (.normal .new) (b.mapSelections (pureClosure fun region ↦
      [m.moved direction bytesPerLine b.data.length region]) ())
  | none =>
    match evt with
    | .key _ => .keep b (.newMode (.normal .new))
    | _ => .unhandled

end JumpTo

/-! ## Splitting -/

namespace Split

/-- `split.rs:22–27`. -/
inductive Action where
  | width (width : Nat)
  | null
  | search (hex : Bool)
  deriving DecidableEq, Repr

/-- `split.rs:29–42`. -/
def defaultMaps : KeyMap Action :=
  [onChar 'b' (.width 1),
   onChar 'w' (.width 2),
   onChar 'd' (.width 4),
   onChar 'q' (.width 8),
   onChar 'o' (.width 16),
   onChar 'n' .null,
   onChar '/' (.search false),
   onChar '?' (.search true)]

/-- The pieces of a region, `split.rs:120–128`: `(min..=max).step_by(step)`, each piece ending
before the next one or with the region. -/
def pieces (step : Nat) (region : SelRegion) : List SelRegion :=
  (List.range ((region.max - region.min) / step + 1)).map fun k ↦
    let pos := region.min + k * step
    (SelRegion.new pos (min region.max (usizeSub (usizeAdd pos step) 1))).withDirection
      region.backward

/-- The closure of a split by width; `step_by(0)` panics. -/
def widthClosure (step : Nat) : Unit → SelRegion → Option (Unit × List SelRegion) :=
  fun _ region ↦ if step = 0 then none else some ((), pieces step region)

/-- `split.rs:104–146`. -/
def transition (E : SearchEngine) (m : Split) (evt : Event) (b : CurrentBuffer X) : Outcome X :=
  match m.countState.transition evt with
  | some newState => .keep b (.newMode (.split { countState := newState }))
  | none =>
    match defaultMaps.eventToAction evt with
    | some (.width width) =>
      .modeAndDirty (.normal .new)
        (b.mapSelections (widthClosure (usizeMul width m.countState.toCount)) ())
    | some .null =>
      applySearch E { pieces := List.replicate m.countState.toCount (.literal 0) } b
    | some (.search hex) => .keep b (.newMode (.search (.new (.split m) hex)))
    | none =>
      match evt with
      | .key _ => .keep b (.newMode (.normal .new))
      | _ => .unhandled

end Split

/-! ## Replacing -/

namespace Replace

/-- `replace.rs:26–32`: the only bound key, CTRL-n. -/
def defaultMaps : KeyMap Unit := [onCtrl 'n' ()]

/-- Every selected byte becomes `ch`. -/
def replaceWith (b : CurrentBuffer X) (ch : UInt8) : Outcome X :=
  .modeAndDirty (.normal .new) ((Ops.replace X b.data b.selection ch).bind b.applyDelta)

/-- `replace.rs:47–103`. -/
def transition (m : Replace) (evt : Event) (b : CurrentBuffer X) : Outcome X :=
  match evt with
  | .key { code := .char ch, modifiers } =>
    if (defaultMaps.eventToAction evt).isSome then replaceWith b 0
    else if !modifiers.withoutShift.isEmpty then .keep b (.newMode (.normal .new))
    else if !m.hex then replaceWith b ch.toNat.toUInt8
    else
      match hexDigit ch with
      | none => .keep b (.newMode (.normal .new))
      | some digit =>
        match m.hexHalf with
        | none =>
          .keep b (.newMode (.replace { hex := m.hex, hexHalf := some (digit <<< 4) }))
        | some half => replaceWith b (digit ||| half)
  | .key _ => .keep b (.newMode (.normal .new))
  | _ => .unhandled

end Replace

/-! ## Normal mode -/

namespace Normal

/-- `normal.rs:23–50`. -/
inductive Action where
  | move (direction : Direction)
  | extend (direction : Direction)
  | splitMode
  | jumpToMode
  | extendToMode
  | collapseMode (hex : Bool)
  | commandMode
  | swapCaret
  | collapseSelection
  | delete (register : Char)
  | yank (register : Char)
  | paste (after : Bool) (register : Char)
  | change (hex : Bool) (register : Char)
  | insert (hex : Bool)
  | append (hex : Bool)
  | overwrite (hex : Bool)
  | removeMain
  | retainMain
  | selectPrev
  | selectNext
  | selectAll
  | replaceMode (hex : Bool)
  | measure
  | undo
  | redo
  deriving DecidableEq, Repr

/-- `normal.rs:52–102`. -/
def defaultMaps : KeyMap Action :=
  [onChar 'h' (.move .left),
   onKey .left (.move .left),
   onChar 'j' (.move .down),
   onKey .down (.move .down),
   onChar 'k' (.move .up),
   onKey .up (.move .up),
   onChar 'l' (.move .right),
   onKey .right (.move .right),
   onChar 'H' (.extend .left),
   onChar 'J' (.extend .down),
   onChar 'K' (.extend .up),
   onChar 'L' (.extend .right),
   onChar 'g' .jumpToMode,
   onChar 'G' .extendToMode,
   onAlt 's' .splitMode,
   onChar ':' .commandMode,
   onChar ';' .collapseSelection,
   onAlt ';' .swapCaret,
   onChar '%' .selectAll,
   onChar ' ' .retainMain,
   onAlt ' ' .removeMain,
   onChar '(' .selectPrev,
   onChar ')' .selectNext,
   onChar 'M' .measure,
   onChar 'u' .undo,
   onChar 'U' .redo,
   onChar 'p' (.paste true '"'),
   onChar 'P' (.paste false '"'),
   onChar 'd' (.delete '"'),
   onChar 'y' (.yank '"'),
   onChar 'c' (.change false '"'),
   onChar 'C' (.change true '"'),
   onChar 'i' (.insert false),
   onChar 'I' (.insert true),
   onChar 'a' (.append false),
   onChar 'A' (.append true),
   onChar 'r' (.replaceMode false),
   onChar 'R' (.replaceMode true),
   onChar 'o' (.overwrite false),
   onChar 'O' (.overwrite true),
   onChar 's' (.collapseMode false),
   onChar 'S' (.collapseMode true)]

/-- The text of a measurement, `normal.rs:307–311`. -/
def measured (len : Nat) : String :=
  toString len ++ " = 0x" ++ String.ofList (Nat.toDigits 16 len) ++ " bytes"

/-- The selection that appending starts from, `normal.rs:165–172`. -/
def appended (bytesPerLine maxSize : Nat) (region : SelRegion) : SelRegion :=
  region.toForward.simpleExtend .right bytesPerLine maxSize 1

/-- Deletes the selected bytes, `normal.rs:221–222` and `:230–237`. -/
def deleteSelected (b : CurrentBuffer X) : Option (CurrentBuffer X × DirtyBytes) :=
  (Ops.deletion X b.data b.selection).bind b.applyDelta

/-- A change to a history that may be exhausted, `normal.rs:314–331`. -/
def stepped (b : CurrentBuffer X) (info : String) :
    Option (CurrentBuffer X × DirtyBytes) → Outcome X
  | none => .keep b (.modeAndInfo (.normal .new) info)
  | some r => .modeAndDirty (.normal .new) (some r)

/-- The bound keys, `normal.rs:125–332`. -/
def act (m : Normal) (action : Action) (b : CurrentBuffer X) (bytesPerLine : Nat) : Outcome X :=
  let maxBytes := b.data.length
  let count := m.countState.toCount
  let mapped (g : SelRegion → SelRegion) : Option (CurrentBuffer X × DirtyBytes) :=
    b.mapSelections (pureClosure fun region ↦ [g region]) ()
  match action with
  | .jumpToMode =>
    match m.countState with
    | .none => .keep b (.newMode (.jumpTo { extend := false }))
    | .some _ offset => .modeAndDirty (.normal .new) (mapped (·.jumpTo offset))
  | .extendToMode =>
    match m.countState with
    | .none => .keep b (.newMode (.jumpTo { extend := true }))
    | .some _ offset => .modeAndDirty (.normal .new) (mapped (·.extendTo offset))
  | .splitMode => .keep b (.newMode (.split .new))
  | .insert hex =>
    .modeAndDirty (.insert { hex, mode := .insert, hexHalf := none }) (mapped (·.toBackward))
  | .append hex =>
    .modeAndDirty (.insert { hex, mode := .append, hexHalf := none })
      (mapped (appended bytesPerLine maxBytes))
  | .replaceMode hex => .keep b (.newMode (.replace { hex, hexHalf := none }))
  | .overwrite hex =>
    .keep b (.newMode (.insert { hex, mode := .overwrite, hexHalf := none }))
  | .move direction =>
    .modeAndDirty (.normal .new) (mapped (·.simpleMove direction bytesPerLine maxBytes count))
  | .extend direction =>
    .modeAndDirty (.normal .new) (mapped (·.simpleExtend direction bytesPerLine maxBytes count))
  | .swapCaret => .dirty (mapped (·.swapCaret))
  | .collapseSelection => .dirty (mapped (·.collapse))
  | .delete register => do
    let b ← b.yankSelections register
    if b.data = [] then Outcome.keep b .none else Outcome.dirty (deleteSelected b)
  | .change hex register => do
    let b ← b.yankSelections register
    let mode := Mode.insert { hex, mode := .insert, hexHalf := none }
    if b.data = [] then Outcome.keep b (.newMode mode)
    else Outcome.modeAndDirty mode (deleteSelected b)
  | .yank register => do
    let b ← b.yankSelections register
    Outcome.keep b .none
  | .paste after register =>
    .dirty ((Ops.paste X b.data b.selection ((b.registers.lookup register).getD [[]]) after
      count).bind b.applyDelta)
  | .removeMain =>
    match m.countState with
    | .some _ (count + 1) => .modeAndDirty (.normal .new) (b.removeSelection count)
    | _ => .dirty (b.removeSelection b.selection.mainSelection)
  | .retainMain =>
    match m.countState with
    | .some _ (count + 1) => .modeAndDirty (.normal .new) (b.retainSelection count)
    | _ => .dirty (b.retainSelection b.selection.mainSelection)
  | .selectNext => .modeAndDirty (.normal .new) (b.selectNext count)
  | .selectPrev => .modeAndDirty (.normal .new) (b.selectPrev count)
  | .selectAll =>
    .dirty (some ({ b with selection := b.selection.selectAll maxBytes },
      .changeInPlace [{ start := 0, stop := maxBytes }]))
  | .collapseMode hex => .keep b (.newMode (.search (.new .collapse hex)))
  | .measure => do
    let main ← b.selection.main
    Outcome.keep b (.modeAndInfo (.normal .new) (measured main.len))
  | .commandMode => .keep b (.newMode (.command .new))
  | .undo => stepped b "nothing left to undo" b.performUndo
  | .redo => stepped b "nothing left to redo" b.performRedo

/-- `normal.rs:113–336`. -/
def transition (m : Normal) (evt : Event) (b : CurrentBuffer X) (bytesPerLine : Nat) :
    Outcome X :=
  match m.countState.transition evt with
  | some newState => .keep b (.newMode (.normal { countState := newState }))
  | none =>
    match defaultMaps.eventToAction evt with
    | some action => m.act action b bytesPerLine
    | none => .unhandled

end Normal

end Tofu
