import Tofu.Buffer.CurrentBuffer
import Tofu.Modes.Event

/-!
# Modes

The states of the modes under `src/src/modes/` and what a transition hands back,
`modes/mode.rs`. The prompt of a search keeps the mode it was opened for; the source
moves that mode from the old prompt to the new one, so that the current prompt always
has it.
-/

namespace Tofu

/-- `modes/insert.rs:16–21`. -/
inductive InsertionMode where
  | insert
  | append
  | overwrite
  deriving DecidableEq, Repr

/-- `modes/insert.rs:23–28`. -/
structure Insert where
  mode : InsertionMode
  hex : Bool
  hexHalf : Option UInt8
  deriving DecidableEq, Repr

/-- `modes/replace.rs:15–19`. -/
structure Replace where
  hex : Bool
  hexHalf : Option UInt8
  deriving DecidableEq, Repr

/-- `modes/jumpto.rs:15–18`. -/
structure JumpTo where
  extend : Bool
  deriving DecidableEq, Repr

/-- `modes/split.rs:17–20`. -/
structure Split where
  countState : CmdCount.State
  deriving DecidableEq, Repr

/-- `modes/normal.rs:18–21`. -/
structure Normal where
  countState : CmdCount.State
  deriving DecidableEq, Repr

/-- `modes/search.rs:17–21`. -/
inductive PatternPiece where
  | literal (c : UInt8)
  | wildcard
  deriving DecidableEq, Repr

/-- `modes/search.rs:23–26`. -/
structure Pattern where
  pieces : List PatternPiece
  deriving DecidableEq, Repr

/-- The modes a search can be opened for, `modes/search.rs:114–121`. -/
inductive SearchAcceptor where
  | split (mode : Split)
  | collapse
  deriving DecidableEq, Repr

/-- `modes/search.rs:123–129`. -/
structure Search where
  pattern : Pattern
  cursor : Nat
  hex : Bool
  hexHalf : Option UInt8
  next : SearchAcceptor
  deriving DecidableEq, Repr

/-- `modes/command.rs:16–19`; the cursor counts bytes. -/
structure Command where
  command : List Char
  cursor : Nat
  deriving DecidableEq, Repr

/-- The modes, each with its state. `Quitting` is the one that takes no input. -/
inductive Mode where
  | normal (mode : Normal)
  | jumpTo (mode : JumpTo)
  | split (mode : Split)
  | search (mode : Search)
  | insert (mode : Insert)
  | replace (mode : Replace)
  | command (mode : Command)
  | quitting
  deriving DecidableEq, Repr

/-- `modes/mode.rs:33–39`. -/
inductive ModeTransition where
  | none
  | newMode (mode : Mode)
  | dirtyBytes (dirty : DirtyBytes)
  | modeAndDirtyBytes (mode : Mode) (dirty : DirtyBytes)
  | modeAndInfo (mode : Mode) (info : String)
  deriving DecidableEq, Repr

/-- `modes/normal.rs:343–347`. -/
def Normal.new : Normal := { countState := .none }

/-- `modes/split.rs:154–158`. -/
def Split.new : Split := { countState := .none }

/-- `modes/search.rs:165–173`. -/
def Search.new (next : SearchAcceptor) (hex : Bool) : Search :=
  { next, hex, hexHalf := Option.none, cursor := 0, pattern := { pieces := [] } }

/-- `modes/command.rs:180–185`. -/
def Command.new : Command := { cursor := 0, command := [] }

/-- `modes/mode.rs:21–23` and `modes/insert.rs:144–146`. -/
def Mode.hasHalfCursor : Mode → Bool
  | .insert mode => mode.hexHalf.isSome
  | _ => false

/-- The mode after a transition, `hex_view/view.rs:1700–1721`. -/
def ModeTransition.mode (old : Mode) : ModeTransition → Mode
  | .none | .dirtyBytes _ => old
  | .newMode mode | .modeAndDirtyBytes mode _ | .modeAndInfo mode _ => mode

/-- The bytes a transition reports. -/
def ModeTransition.report : ModeTransition → Option DirtyBytes
  | .dirtyBytes dirty | .modeAndDirtyBytes _ dirty => some dirty
  | .none | .newMode _ | .modeAndInfo _ _ => Option.none

/-- What a mode makes of an event: `none` is a panic and `some none` an event it does not
handle. -/
abbrev Outcome (X : Rope.XiRope UInt8) := Option (Option (ModeTransition × CurrentBuffer X))

namespace Outcome

variable {X : Rope.XiRope UInt8}

/-- An event that is not handled. -/
def unhandled : Outcome X := some none

/-- A transition that leaves the buffer as it is. -/
def keep (b : CurrentBuffer X) (t : ModeTransition) : Outcome X := some (some (t, b))

/-- `ModeTransition::DirtyBytes` of a change to the buffer. -/
def dirty (r : Option (CurrentBuffer X × DirtyBytes)) : Outcome X :=
  r.map fun (b, dirty) ↦ some (.dirtyBytes dirty, b)

/-- `ModeTransition::new_mode_and_dirty` of a change to the buffer. -/
def modeAndDirty (mode : Mode) (r : Option (CurrentBuffer X × DirtyBytes)) : Outcome X :=
  r.map fun (b, dirty) ↦ some (.modeAndDirtyBytes mode dirty, b)

/-- An event that changes no byte does not panic. -/
@[simp] theorem isSome_keep (b : CurrentBuffer X) (t : ModeTransition) :
    (keep b t).isSome = true := rfl

/-- A redraw panics where the change does. -/
@[simp] theorem isSome_dirty (r : Option (CurrentBuffer X × DirtyBytes)) :
    (dirty r).isSome = (r.map Prod.fst).isSome := by
  cases r <;> rfl

/-- So does a redraw with a change of mode. -/
@[simp] theorem isSome_modeAndDirty (mode : Mode) (r : Option (CurrentBuffer X × DirtyBytes)) :
    (modeAndDirty mode r).isSome = (r.map Prod.fst).isSome := by
  cases r <;> rfl

/-- An event that changes no byte keeps the buffer it got. -/
theorem of_keep {b b' : CurrentBuffer X} {t t' : ModeTransition}
    (h : keep b t = some (some (t', b'))) : t' = t ∧ b' = b := by
  obtain ⟨rfl⟩ := h
  exact ⟨rfl, rfl⟩

/-- A redraw reports what is dirty, and has the buffer of the change. -/
theorem of_dirty {r : Option (CurrentBuffer X × DirtyBytes)} {t : ModeTransition}
    {b : CurrentBuffer X} (h : dirty r = some (some (t, b))) :
    (∃ d, t = .dirtyBytes d) ∧ r.map Prod.fst = some b := by
  obtain ⟨⟨b', d⟩, rfl, ⟨rfl⟩⟩ := Option.map_eq_some_iff.mp h
  exact ⟨⟨d, rfl⟩, rfl⟩

/-- So does a redraw with a change of mode. -/
theorem of_modeAndDirty {mode : Mode} {r : Option (CurrentBuffer X × DirtyBytes)}
    {t : ModeTransition} {b : CurrentBuffer X} (h : modeAndDirty mode r = some (some (t, b))) :
    (∃ d, t = .modeAndDirtyBytes mode d) ∧ r.map Prod.fst = some b := by
  obtain ⟨⟨b', d⟩, rfl, ⟨rfl⟩⟩ := Option.map_eq_some_iff.mp h
  exact ⟨⟨d, rfl⟩, rfl⟩

end Outcome

end Tofu
