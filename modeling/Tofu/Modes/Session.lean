import Tofu.Base.Run
import Tofu.Modes.Insert
import Tofu.Modes.Normal

/-!
# Sessions on one buffer

The modes that work on the current buffer alone, and runs of key events in them. Between
two keys the view may load more of the file into the buffer.
-/

namespace Tofu

open Rope

variable {X : XiRope UInt8}

/-- `Mode::transition` of the modes that work on the current buffer. The command prompt works
on all buffers and takes no part here; `Quitting` takes no input, `modes/mod.rs:14–21`. -/
def Mode.onBuffer (E : SearchEngine) (mode : Mode) (evt : Event) (b : CurrentBuffer X)
    (bytesPerLine : Nat) : Outcome X :=
  match mode with
  | .normal m => m.transition evt b bytesPerLine
  | .jumpTo m => m.transition evt b bytesPerLine
  | .split m => m.transition E evt b
  | .search m => m.transition E evt b
  | .insert m => m.transition evt b bytesPerLine
  | .replace m => m.transition evt b
  | .command _ => .unhandled
  | .quitting => none

/-- A mode on a buffer. -/
structure Session (X : XiRope UInt8) where
  mode : Mode
  buffer : CurrentBuffer X

/-- A key, or the view loading up to `n` bytes more of the file. -/
inductive SessionInput where
  | key (evt : KeyEvent)
  | load (n : Nat)
  deriving DecidableEq, Repr

namespace Session

/-- The keys the view handles itself, `hex_view/view.rs:1407–1443`: CTRL-e and CTRL-y take the
cursors along when they scroll by a line. What they load is an input of its own. -/
def scrollKey (evt : KeyEvent) : Option Direction :=
  [onCtrl 'e' Direction.down, onCtrl 'y' Direction.up].lookup evt

/-- Only these two keys scroll. -/
theorem of_scrollKey {evt : KeyEvent} {direction : Direction}
    (h : scrollKey evt = some direction) :
    (evt, direction) = onCtrl 'e' .down ∨ (evt, direction) = onCtrl 'y' .up := by
  obtain ⟨before, behind, hsplit, -⟩ := List.lookup_eq_some_iff.mp h
  have hmem : (evt, direction) ∈ [onCtrl 'e' Direction.down, onCtrl 'y' Direction.up] := by
    rw [hsplit]
    simp
  simpa using hmem

/-- A key no mode handles. -/
def pressDefault (bytesPerLine : Nat) (evt : KeyEvent) (s : Session X) : Option (Session X) :=
  match scrollKey evt with
  | none => some s
  | some direction =>
    (s.buffer.mapSelections (Selection.pureClosure fun region ↦
      [region.simpleMove direction bytesPerLine s.buffer.data.length 1]) ()).map
        fun (b, _) ↦ { s with buffer := b }

/-- What the event loop makes of a key: the mode and the buffer after its transition. -/
def press (E : SearchEngine) (bytesPerLine : Nat) (evt : KeyEvent) (s : Session X) :
    Option (Session X) := do
  match ← s.mode.onBuffer E (.key evt) s.buffer bytesPerLine with
  | none => s.pressDefault bytesPerLine evt
  | some (t, b) => some { mode := t.mode s.mode, buffer := b }

section Press

variable {E : SearchEngine} {bytesPerLine : Nat} {evt : KeyEvent} {s : Session X}

/-- A key that changes bytes and the mode leaves both. -/
theorem press_of_modeAndDirty {mode : Mode} {r : Option (CurrentBuffer X × DirtyBytes)}
    (h : s.mode.onBuffer E (.key evt) s.buffer bytesPerLine = .modeAndDirty mode r) :
    s.press E bytesPerLine evt = (r.map Prod.fst).map fun b ↦ { mode, buffer := b } := by
  unfold press
  rw [h]
  cases r <;> rfl

/-- A key that changes bytes leaves the mode. -/
theorem press_of_dirty {r : Option (CurrentBuffer X × DirtyBytes)}
    (h : s.mode.onBuffer E (.key evt) s.buffer bytesPerLine = .dirty r) :
    s.press E bytesPerLine evt = (r.map Prod.fst).map fun b ↦ { s with buffer := b } := by
  unfold press
  rw [h]
  cases r <;> rfl

end Press

/-- One input; a file that cannot be read ends the run. -/
def step (E : SearchEngine) (fs : FileSystem) (bytesPerLine : Nat) (input : SessionInput)
    (s : Session X) : Option (Session X) :=
  match input with
  | .key evt => s.press E bytesPerLine evt
  | .load n => (s.buffer.loadNextChunk fs n).map fun (b, _) ↦ { s with buffer := b }

/-- A buffer just opened, in normal mode. -/
def opened (data : List UInt8) (path : Option Path) : Session X :=
  { mode := .normal .new, buffer := CurrentBuffer.fromDataAndPath data path }

end Session

/-- A key without modifiers. -/
def KeyEvent.plain (code : KeyCode) : KeyEvent := { code, modifiers := .none }

/-- The keys of typed characters. -/
def typedKeys (text : List Char) : List SessionInput :=
  text.map fun c ↦ .key (.plain (.char c))

end Tofu
