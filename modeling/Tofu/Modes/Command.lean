import Tofu.Modes.Session

/-!
# The command prompt

`src/src/modes/command.rs`. Commands work on the files and on all buffers. The cursor of
the prompt counts bytes, while it is moved by characters; editing off the boundary of a
character panics. With the prompt, every mode has its transition.
-/

namespace Tofu

open Rope

/-- The files and the open buffers. -/
structure Workspace (X : XiRope UInt8) where
  fs : FileSystem
  buffers : BuffrCollection X

variable {X : XiRope UInt8}

/-! ## Commands -/

namespace Cmd

/-- `command.rs:49–58`. -/
def quit (ws : Workspace X) (_ : Path) : Option (ModeTransition × Workspace X) :=
  if ws.buffers.list.any fun b ↦ b.dirty && b.path.isSome then
    some (.modeAndInfo (.normal .new) "unsaved changes! Run :wq or :q! instead.", ws)
  else some (.newMode .quitting, ws)

/-- `command.rs:60–62`. -/
def forceQuit (ws : Workspace X) (_ : Path) : Option (ModeTransition × Workspace X) :=
  some (.newMode .quitting, ws)

/-- The transition after a write that failed. -/
def writeFailed (fs : FileSystem) : ModeTransition :=
  .modeAndInfo (.normal .new) ("write failed: " ++ fs.errorText)

/-- `command.rs:64–87`. -/
def write (ws : Workspace X) (filename : Path) : Option (ModeTransition × Workspace X) := do
  let b ← ws.buffers.current
  match if filename = [] then b.path else some filename with
  | some path =>
    match ws.fs.write path b.data with
    | none => some (writeFailed ws.fs, ws)
    | some fs =>
      let saved := { b with dirty := false }.updatePathIfMissing path
      some (.newMode (.normal .new), { fs, buffers := ws.buffers.setCurrent saved })
  | none => some (.modeAndInfo (.normal .new) "current_buffer has no path", ws)

/-- The loop over all buffers, `command.rs:90–100`: whether a write failed, which ends it, and
the files and buffers after it. -/
def writeBuffers (fs : FileSystem) :
    List (CurrentBuffer X) → Bool × FileSystem × List (CurrentBuffer X)
  | [] => (false, fs, [])
  | b :: list =>
    match b.path with
    | none =>
      let (failed, fs, list) := writeBuffers fs list
      (failed, fs, b :: list)
    | some path =>
      match fs.write path b.data with
      | none => (true, fs, b :: list)
      | some fs =>
        let (failed, fs, list) := writeBuffers fs list
        (failed, fs, { b with dirty := false } :: list)

/-- Writes all buffers and goes on to a mode. -/
def writeAllThen (mode : Mode) (ws : Workspace X) : Option (ModeTransition × Workspace X) :=
  let (failed, fs, list) := writeBuffers ws.fs ws.buffers.list
  some (if failed then writeFailed fs else .newMode mode,
    { fs, buffers := { ws.buffers with list } })

/-- `command.rs:89–102`. -/
def writeAll (ws : Workspace X) (_ : Path) : Option (ModeTransition × Workspace X) :=
  writeAllThen (.normal .new) ws

/-- `command.rs:104–117`. -/
def writeQuit (ws : Workspace X) (_ : Path) : Option (ModeTransition × Workspace X) :=
  writeAllThen .quitting ws

/-- `command.rs:119–125`. -/
def edit (ws : Workspace X) (filename : Path) : Option (ModeTransition × Workspace X) :=
  match ws.buffers.switchCurrentBuffer ws.fs filename with
  | none => some (.modeAndInfo (.normal .new) ws.fs.errorText, ws)
  | some buffers => some (.modeAndDirtyBytes (.normal .new) .changeLength, { ws with buffers })

/-- `command.rs:138–141`. -/
def forceDeleteCurrentBuffer (ws : Workspace X) (_ : Path) :
    Option (ModeTransition × Workspace X) := do
  let buffers ← ws.buffers.deleteCurrent
  some (.modeAndDirtyBytes (.normal .new) .changeLength, { ws with buffers })

/-- `command.rs:127–136`. -/
def deleteCurrentBuffer (ws : Workspace X) (arg : Path) :
    Option (ModeTransition × Workspace X) := do
  let b ← ws.buffers.current
  if b.dirty && b.path.isSome then
    some (.modeAndInfo (.normal .new) "current_buffer is dirty, use :db! if you're sure", ws)
  else forceDeleteCurrentBuffer ws arg

end Cmd

namespace Command

/-- `command.rs:154–172`. -/
def defaultCommands :
    List (List Char × (Workspace X → Path → Option (ModeTransition × Workspace X))) :=
  [(['q'], Cmd.quit),
   (['q', 'u', 'i', 't'], Cmd.quit),
   (['q', '!'], Cmd.forceQuit),
   (['q', 'u', 'i', 't', '!'], Cmd.forceQuit),
   (['w'], Cmd.write),
   (['w', 'r', 'i', 't', 'e'], Cmd.write),
   (['w', 'q'], Cmd.writeQuit),
   (['w', 'a'], Cmd.writeAll),
   (['w', 'r', 'i', 't', 'e', '-', 'a', 'l', 'l'], Cmd.writeAll),
   (['e'], Cmd.edit),
   (['e', 'd', 'i', 't'], Cmd.edit),
   (['d', 'b'], Cmd.deleteCurrentBuffer),
   (['d', 'e', 'l', 'e', 't', 'e', '-', 'c', 'u', 'r', 'r', 'e', 'n', 't', '_', 'b', 'u', 'f',
     'f', 'e', 'r'], Cmd.deleteCurrentBuffer),
   (['d', 'b', '!'], Cmd.forceDeleteCurrentBuffer),
   (['d', 'e', 'l', 'e', 't', 'e', '-', 'c', 'u', 'r', 'r', 'e', 'n', 't', '_', 'b', 'u', 'f',
     'f', 'e', 'r', '!'], Cmd.forceDeleteCurrentBuffer)]

/-- `command.rs:187–196`. -/
def finish (m : Command) (ws : Workspace X) : Option (ModeTransition × Workspace X) :=
  let name := m.command.takeWhile (· ≠ ' ')
  let rest := m.command.dropWhile (· ≠ ' ')
  match defaultCommands.lookup name with
  | some handler => handler ws rest.tail
  | none =>
    some (.modeAndInfo (.normal .new) ("Unknown command " ++ String.ofList name), ws)

/-! ## The prompt -/

/-- `String::len`. -/
def byteLen (text : List Char) : Nat := (text.map Char.utf8Size).sum

/-- The text before and behind a byte offset, which has to lie between characters. -/
def splitAtByte : List Char → Nat → Option (List Char × List Char)
  | text, 0 => some ([], text)
  | [], _ + 1 => none
  | c :: text, n + 1 =>
    if c.utf8Size ≤ n + 1 then
      (splitAtByte text (n + 1 - c.utf8Size)).map fun (before, behind) ↦ (c :: before, behind)
    else none

/-- `String::insert`. -/
def insertChar (text : List Char) (idx : Nat) (ch : Char) : Option (List Char) :=
  (splitAtByte text idx).map fun (before, behind) ↦ before ++ ch :: behind

/-- `String::remove`, which panics at the end of the text as well. -/
def removeChar (text : List Char) (idx : Nat) : Option (List Char) := do
  let (before, behind) ← splitAtByte text idx
  match behind with
  | [] => none
  | _ :: behind => some (before ++ behind)

/-- `command.rs:21–29`. -/
inductive Action where
  | removeLast
  | removeThis
  | cursorLeft
  | cursorRight
  | finish
  | cancel
  deriving DecidableEq, Repr

/-- `command.rs:31–42`. -/
def defaultMaps : KeyMap Action :=
  [onKey .backspace .removeLast,
   onKey .delete .removeThis,
   onKey .enter .finish,
   onKey .esc .cancel,
   onKey .left .cursorLeft,
   onKey .right .cursorRight]

/-- The bound keys, `command.rs:205–231`. -/
def act (m : Command) (action : Action) (ws : Workspace X) :
    Option (ModeTransition × Workspace X) :=
  let prompt (command : List Char) (cursor : Nat) : ModeTransition × Workspace X :=
    (.newMode (.command { command, cursor }), ws)
  match action with
  | .removeLast =>
    if m.cursor ≠ 0 then
      (removeChar m.command (m.cursor - 1)).map fun command ↦ prompt command (m.cursor - 1)
    else some (.none, ws)
  | .removeThis => (removeChar m.command m.cursor).map fun command ↦ prompt command m.cursor
  | .cursorLeft => some (prompt m.command (m.cursor - 1))
  | .cursorRight =>
    some (prompt m.command (if m.cursor < byteLen m.command then m.cursor + 1 else m.cursor))
  | .cancel => some (.newMode (.normal .new), ws)
  | .finish => m.finish ws

/-- `command.rs:204–246`. The cursor moves by one byte behind a typed character. -/
def transition (m : Command) (evt : Event) (ws : Workspace X) :
    Option (Option (ModeTransition × Workspace X)) :=
  match defaultMaps.eventToAction evt with
  | some action => (m.act action ws).map some
  | none =>
    match evt with
    | .key { code := .char ch, modifiers } =>
      if !modifiers.withoutShift.isEmpty then some none
      else
        (insertChar m.command m.cursor ch).map fun command ↦
          some (.newMode (.command { command, cursor := m.cursor + 1 }), ws)
    | _ => some none

end Command

/-- `Mode::transition`: `none` is a panic and `some none` an event the mode does not handle. -/
def Mode.transition (E : SearchEngine) (mode : Mode) (evt : Event) (ws : Workspace X)
    (bytesPerLine : Nat) : Option (Option (ModeTransition × Workspace X)) :=
  match mode with
  | .command m => m.transition evt ws
  | mode => do
    let b ← ws.buffers.current
    let outcome ← mode.onBuffer E evt b bytesPerLine
    some (outcome.map fun (t, b) ↦ (t, { ws with buffers := ws.buffers.setCurrent b }))

end Tofu
