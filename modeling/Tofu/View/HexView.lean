import Tofu.Buffer.Window
import Tofu.Modes.Command

/-!
# The view and the event loop

`src/src/hex_view/view.rs` and `src/src/bin/tofu.rs`. The view shows a part of the current
buffer; drawing, scrolling and moving the cursors load more of the file into the buffer,
and scrolling drops bytes from its top. `height` is the height that `terminal::size` reports.

What is printed goes to a painter, which may fail. With the one that prints nothing, of drawing
only the loading remains, without the panics of printing (`Tofu.View.Inspected`) and without the
loop for the remaining lines, which does not end on a screen of two to four rows
(`view.rs:1384–1387`); `none` is then a panic or an error that ends the event loop.
-/

namespace Tofu

open Rope

/-- The data after a call of `load_next_chunk` or `trim_buffer_top`. -/
structure WindowCall where
  trimmed : Bool
  dataStartOffset : Nat
  data : List UInt8
  deriving DecidableEq, Repr

/-- `view.rs:372–384`. The list of calls, latest first, is not in the source; it is there for
statements about them. -/
structure HexView (X : XiRope UInt8) where
  buffrCollection : BuffrCollection X
  size : Nat × Nat
  bytesPerLine : Nat
  startOffset : Nat
  mode : Mode
  info : Option String
  calls : List WindowCall

variable {X : XiRope UInt8}

/-- The number of lines about the current bytes, `byte_properties.rs:238–240`. -/
def BytePropertiesFormatter.height : Nat := 5

/-- A screen of bytes above the status line: `(height as usize - 1) * 16`. -/
def chunkSize (height : Nat) : Nat := (height - 1) * 16

namespace HexView

/-- `view.rs:709–723`. -/
def withBuffrCollection (buffrCollection : BuffrCollection X) (size : Nat × Nat) : HexView X :=
  { buffrCollection
    size
    bytesPerLine := 0x10
    startOffset := 0
    mode := .normal .new
    info := none
    calls := [] }

/-- The buffer that is shown. -/
def current (v : HexView X) : Option (CurrentBuffer X) := v.buffrCollection.current

/-- Another buffer in the place of the one that is shown. -/
def setCurrent (v : HexView X) (b : CurrentBuffer X) : HexView X :=
  { v with buffrCollection := v.buffrCollection.setCurrent b }

/-! ## Loading and trimming -/

/-- `load_next_chunk` of the current buffer. -/
def loadNextChunk (fs : FileSystem) (v : HexView X) (chunkSize : Nat) :
    Option (HexView X × Bool) := do
  let b ← v.current
  let (b, loaded) ← b.loadNextChunk fs chunkSize
  let call := { trimmed := false, dataStartOffset := b.dataStartOffset, data := b.data }
  some ({ v.setCurrent b with calls := call :: v.calls }, loaded)

/-- `view.rs:389–399`. -/
def shouldTrimBuffer (height : Nat) (v : HexView X) : Option Bool := do
  let b ← v.current
  some (decide (b.data.length > chunkSize height * 3))

/-- `view.rs:653–688`. The offset of the data in the file is not changed. -/
def trimBufferTop (v : HexView X) (chunkSize : Nat) : Option (HexView X) := do
  let b ← v.current
  if chunkSize = 0 ∨ b.data.length ≤ chunkSize * 2 then some v
  else
    let b := { b with data := trimTop b.data chunkSize }
    let call := { trimmed := true, dataStartOffset := b.dataStartOffset, data := b.data }
    some { v.setCurrent b with
      startOffset := v.startOffset - chunkSize
      calls := call :: v.calls }

/-- `view.rs:896–902`. -/
def visibleBytes (v : HexView X) (dataLen : Nat) : Interval :=
  { start := v.startOffset
    stop := min (dataLen + 1) (usizeAdd v.startOffset ((v.size.2 - 1) * v.bytesPerLine)) }

/-- `view.rs:1214–1241`. -/
def ensureVisibleData (fs : FileSystem) (v : HexView X) : Option (HexView X) := do
  let b ← v.current
  if (v.visibleBytes b.data.length).stop > b.data.length then
    (v.loadNextChunk fs 64).map Prod.fst
  else some v

/-- After a load that read something, `view.rs:1501–1532`. -/
def trimAfterLoad (height : Nat) (v : HexView X) : Option (HexView X) := do
  if ← v.shouldTrimBuffer height then
    if chunkSize height > 0 then v.trimBufferTop (chunkSize height) else some v
  else some v

/-- The load before scrolling to a position, `view.rs:1495–1556`: the view after it, and whether
scrolling goes on. -/
def loadForScroll (fs : FileSystem) (height : Nat) (v : HexView X) (nextPosition : Nat) :
    Option (HexView X × Bool) := do
  let b ← v.current
  let nextVisibleEnd := usizeAdd nextPosition (v.size.2 * v.bytesPerLine)
  if nextVisibleEnd > b.data.length then
    let (v, loaded) ← v.loadNextChunk fs 64
    if loaded then (v.trimAfterLoad height).map fun v ↦ (v, true)
    else some (v, decide (nextPosition < b.data.length))
  else some (v, true)

/-- The rows of the bytes in these intervals that are visible, `view.rs:1679–1692`. -/
def dirtyRows (v : HexView X) (intervals : List Interval) : Option (List Nat) := do
  let b ← v.current
  let visible := v.visibleBytes b.data.length
  let bytes := intervals.flatMap fun x ↦
    let start := max visible.start x.start
    List.range' start (min visible.stop x.stop - start)
  some (bytes.map (fun byte ↦ (byte - v.startOffset) / v.bytesPerLine % 2 ^ 16) ++
    List.range BytePropertiesFormatter.height)

/-- The cursors move with a scrolled line. -/
def moveCursors (v : HexView X) (direction : Direction) : Option (HexView X) := do
  let b ← v.current
  let (b, _) ← b.mapSelections (Selection.pureClosure fun region ↦
    [region.simpleMove direction v.bytesPerLine b.data.length 1]) ()
  some (v.setCurrent b)

end HexView

/-- The files and the view. -/
structure Editor (X : XiRope UInt8) where
  fs : FileSystem
  view : HexView X

/-- `bin/tofu.rs:55–85`: the first chunk of the file that is named, or an empty buffer. -/
def Editor.initialBuffers (fs : FileSystem) (filename : Option Path) (height : Nat) :
    Option (BuffrCollection X) :=
  match filename with
  | none => some .new
  | some path => (fs.readAt path 0 (chunkSize height)).map fun data ↦
    .withCurrentBuffer (.fromDataAndPath data (some path))

/-! ## The event loop -/

/-- What the event loop prints to. -/
structure Painter (X : XiRope UInt8) (m : Type → Type) where
  /-- The rows that `draw` prints, all of them, or those that `draw_rows` is given,
  `view.rs:1249–1312` and `1324–1387`. -/
  rows : Option (List Nat) → HexView X → m Unit
  /-- `view.rs:1154–1195`. -/
  statusline : HexView X → m Unit
  /-- The rows of the terminal move up by so many lines, `view.rs:1588–1593`. -/
  rowsUp : HexView X → Nat → m Unit
  /-- They move down, `view.rs:1615–1620`. -/
  rowsDown : HexView X → Nat → m Unit
  /-- The terminal has another width and height. -/
  resized : Nat → Nat → m Unit

namespace Painter

variable {m : Type → Type} [Monad m] [MonadLiftT Option m] (P : Painter X m) (fs : FileSystem)

/-- `view.rs:1317–1398`: what is visible is loaded before it is printed. -/
def draw (v : HexView X) : m (HexView X) := do
  let v ← v.ensureVisibleData fs
  P.rows none v
  P.statusline v
  pure v

/-- `view.rs:1244–1315`. -/
def drawRows (v : HexView X) (invalidatedRows : List Nat) : m (HexView X) := do
  let v ← v.ensureVisibleData fs
  P.rows (some invalidatedRows) v
  pure v

/-- `view.rs:1451–1601`. The position is not shifted when bytes before it were dropped. -/
def scrollDown (height : Nat) (v : HexView X) (lineCount : Nat) : m (HexView X) := do
  let nextPosition := usizeAdd v.startOffset (usizeMul lineCount 16)
  let (v, goesOn) ← v.loadForScroll fs height nextPosition
  let b ← v.current
  if !goesOn ∨ nextPosition ≥ b.data.length then pure v
  else
    let v := { v with startOffset := nextPosition }
    if lineCount > v.size.2 - 1 then P.draw fs v
    else
      P.rowsUp v lineCount
      P.drawRows fs v (List.range' (v.size.2 - 1 - lineCount) lineCount ++
        List.range BytePropertiesFormatter.height)

/-- `view.rs:1603–1626`. -/
def scrollUp (v : HexView X) (lineCount : Nat) : m (HexView X) :=
  if v.startOffset < usizeMul 0x10 lineCount then pure v
  else
    let v := { v with startOffset := v.startOffset - usizeMul 0x10 lineCount }
    if lineCount > v.size.2 - 1 then P.draw fs v
    else do
      P.rowsDown v lineCount
      P.drawRows fs v (List.range ((lineCount + BytePropertiesFormatter.height) % 2 ^ 16))

/-- `view.rs:1628–1652`. -/
def maybeUpdateOffset (height : Nat) (v : HexView X) : m (HexView X) := do
  let b ← v.current
  if b.data = [] then pure { v with startOffset := 0 }
  else
    let main ← b.selection.main
    let mainCursorOffset := main.caret
    let visible := v.visibleBytes b.data.length
    let bytesPerLine := asIsize v.bytesPerLine
    let scroll (delta : Int) : m (HexView X) :=
      if delta < 0 then
        let lineDelta := (isizeAdd (isizeSub delta bytesPerLine) 1).tdiv bytesPerLine
        P.scrollUp fs v (asUsize lineDelta.natAbs)
      else
        let lineDelta := (isizeSub (isizeAdd delta bytesPerLine) 1).tdiv bytesPerLine
        P.scrollDown fs height v (asUsize lineDelta)
    if mainCursorOffset < visible.start then
      scroll (isizeSub (asIsize mainCursorOffset) (asIsize visible.start))
    else if mainCursorOffset ≥ visible.stop then
      scroll (isizeSub (asIsize mainCursorOffset) (isizeSub (asIsize visible.stop) 1))
    else pure v

/-- `view.rs:1654–1668`. -/
def maybeUpdateOffsetAndDraw (v : HexView X) : m (HexView X) := do
  let b ← v.current
  let main ← b.selection.main
  let mainCursorOffset := main.caret
  let line := mainCursorOffset - mainCursorOffset % v.bytesPerLine
  let visible := v.visibleBytes b.data.length
  let startOffset :=
    if mainCursorOffset < visible.start then line
    else if mainCursorOffset ≥ visible.stop then
      usizeAdd line v.bytesPerLine - (v.size.2 - 1) * v.bytesPerLine
    else v.startOffset
  P.draw fs { v with startOffset }

/-- `view.rs:1670–1698`. -/
def transitionDirtyBytes (height : Nat) (v : HexView X) : DirtyBytes → m (HexView X)
  | .changeInPlace intervals => do
    let v ← P.maybeUpdateOffset fs height v
    let invalidatedRows ← v.dirtyRows intervals
    P.drawRows fs v invalidatedRows
  | .changeLength => P.maybeUpdateOffsetAndDraw fs v

/-- `view.rs:1700–1721`. -/
def transition (height : Nat) (v : HexView X) (t : ModeTransition) : m (HexView X) :=
  let v := { v with info := none }
  match t with
  | .none => pure v
  | .dirtyBytes dirty => P.transitionDirtyBytes fs height v dirty
  | .newMode mode => pure { v with mode }
  | .modeAndDirtyBytes mode dirty => P.transitionDirtyBytes fs height { v with mode } dirty
  | .modeAndInfo mode info => pure { v with mode, info := some info }

/-- `view.rs:1400–1448`. -/
def handleEventDefault (height : Nat) (v : HexView X) : Event → m (HexView X)
  | .resize width height => do
    P.resized width height
    P.draw fs { v with size := (width, height) }
  | .key evt =>
    match Session.scrollKey evt with
    | some .down => do
      let (v, _) ← v.loadNextChunk fs (chunkSize height)
      let v ← v.moveCursors .down
      let v ← P.scrollDown fs height v 1
      P.draw fs v
    | some .up => do
      let v ← v.moveCursors .up
      let v ← P.scrollUp fs v 1
      P.draw fs v
    | _ => pure v
  | .mouse => pure v

/-- A round of the event loop, `view.rs:1730–1746`, which a mode that takes no input ends. -/
def step (E : SearchEngine) (height : Nat) (evt : Event) (e : Editor X) : m (Editor X) :=
  if e.view.mode = .quitting then liftM (none : Option (Editor X))
  else do
    let ws : Workspace X := { fs := e.fs, buffers := e.view.buffrCollection }
    match ← e.view.mode.transition E evt ws e.view.bytesPerLine with
    | some (t, ws) =>
      let view ← P.transition ws.fs height { e.view with buffrCollection := ws.buffers } t
      P.statusline view
      pure { fs := ws.fs, view }
    | none =>
      let view ← P.handleEventDefault e.fs height e.view evt
      P.statusline view
      pure { e with view }

/-- The first drawing of `run_event_loop`, `view.rs:1723–1728`. -/
def started (filename : Option Path) (size : Nat × Nat) : m (Editor X) := do
  let buffers ← Editor.initialBuffers fs filename size.2
  let view ← P.draw fs (HexView.withBuffrCollection buffers size)
  pure { fs, view }

end Painter

/-- The mode handles the event, or leaves it to the view; the status line does not fail. -/
theorem Painter.step_of_statusline (P : Painter X Option) (hP : ∀ v, P.statusline v = some ())
    {E : SearchEngine} {height : Nat} {evt : Event} {e : Editor X}
    (hmode : e.view.mode ≠ .quitting) :
    P.step E height evt e =
      (e.view.mode.transition E evt { fs := e.fs, buffers := e.view.buffrCollection }
        e.view.bytesPerLine).bind fun
        | some (t, ws) =>
          (P.transition ws.fs height { e.view with buffrCollection := ws.buffers } t).map
            fun view ↦ { fs := ws.fs, view }
        | none => (P.handleEventDefault e.fs height e.view evt).map fun view ↦ { e with view } := by
  simp only [Painter.step, if_neg hmode, hP, Option.map_eq_bind]
  rfl

/-! ## Without output -/

/-- Prints nothing. -/
def Painter.silent : Painter X Option where
  rows _ _ := some ()
  statusline _ := some ()
  rowsUp _ _ := some ()
  rowsDown _ _ := some ()
  resized _ _ := some ()

namespace HexView

variable (fs : FileSystem) (height : Nat) (v : HexView X)

/-- Drawing, of which the loading is left. -/
def draw : Option (HexView X) := Painter.silent.draw fs v

/-- Drawing of rows, whichever they are. -/
def drawRows : Option (HexView X) := Painter.silent.drawRows fs v []

/-- Scrolling down, without output. -/
def scrollDown (lineCount : Nat) : Option (HexView X) :=
  Painter.silent.scrollDown fs height v lineCount

/-- Scrolling up, without output. -/
def scrollUp (lineCount : Nat) : Option (HexView X) := Painter.silent.scrollUp fs v lineCount

/-- Scrolling to the main cursor, without output. -/
def maybeUpdateOffset : Option (HexView X) := Painter.silent.maybeUpdateOffset fs height v

/-- Moving the offset to the main cursor, without output. -/
def maybeUpdateOffsetAndDraw : Option (HexView X) := Painter.silent.maybeUpdateOffsetAndDraw fs v

/-- What follows a change of the bytes, without output. -/
def transitionDirtyBytes (dirty : DirtyBytes) : Option (HexView X) :=
  Painter.silent.transitionDirtyBytes fs height v dirty

/-- What follows a transition of the mode, without output. -/
def transition (t : ModeTransition) : Option (HexView X) :=
  Painter.silent.transition fs height v t

/-- Events that the mode leaves to the view, without output. -/
def handleEventDefault (evt : Event) : Option (HexView X) :=
  Painter.silent.handleEventDefault fs height v evt

/-- Without output, drawing only loads what is to be seen. -/
theorem draw_eq : v.draw fs = v.ensureVisibleData fs := Option.bind_fun_some _

/-- So does drawing some rows. -/
theorem drawRows_eq_draw : v.drawRows fs = v.draw fs := rfl

/-- A drawing loads what is visible and not there. -/
theorem draw_cases {fs : FileSystem} {v v' : HexView X} (h : v.draw fs = some v') :
    (∃ loaded, v.loadNextChunk fs 64 = some (v', loaded)) ∨ v' = v := by
  rw [draw_eq] at h
  obtain ⟨b, -, h⟩ := Option.bind_eq_some_iff.mp h
  split at h
  · obtain ⟨⟨v₁, loaded⟩, hl, rfl⟩ := Option.map_eq_some_iff.mp h
    exact .inl ⟨loaded, hl⟩
  · exact .inr (Option.some.inj h).symm

/-- A trim after a load drops the first chunk of more than three. -/
theorem trimAfterLoad_eq {v : HexView X} {b : CurrentBuffer X} (hb : v.current = some b)
    (height : Nat) :
    v.trimAfterLoad height = some
      (if 0 < chunkSize height ∧ chunkSize height * 3 < b.data.length then
        let data := b.data.drop (chunkSize height)
        { v.setCurrent { b with data } with
          startOffset := v.startOffset - chunkSize height
          calls :=
            { trimmed := true, dataStartOffset := b.dataStartOffset, data } :: v.calls }
      else v) := by
  rw [trimAfterLoad, shouldTrimBuffer, hb]
  simp only [Option.bind_eq_bind, Option.bind_some, decide_eq_true_eq]
  by_cases hlong : b.data.length > chunkSize height * 3
  · by_cases hpos : chunkSize height > 0
    · have htop : trimTop b.data (chunkSize height) = b.data.drop (chunkSize height) := by
        rw [trimTop, if_neg (by omega), if_pos (by omega)]
      rw [if_pos hlong, if_pos hpos, if_pos ⟨hpos, hlong⟩, trimBufferTop, hb, Option.bind_eq_bind,
        Option.bind_some, if_neg (by omega), htop]
    · rw [if_pos hlong, if_neg hpos, if_neg fun h ↦ hpos h.1]
  · rw [if_neg hlong, if_neg fun h ↦ hlong h.2]

/-- What a trim after a load can do. -/
theorem trimAfterLoad_cases {height : Nat} {v v' : HexView X}
    (h : v.trimAfterLoad height = some v') :
    v' = v ∨ ∃ b, v.current = some b ∧ chunkSize height * 3 < b.data.length ∧
      v' = { v.setCurrent { b with data := b.data.drop (chunkSize height) } with
        startOffset := v.startOffset - chunkSize height
        calls :=
          { trimmed := true
            dataStartOffset := b.dataStartOffset
            data := b.data.drop (chunkSize height) } :: v.calls } := by
  cases hb : v.current with
  | none =>
    rw [trimAfterLoad, shouldTrimBuffer, hb] at h
    cases h
  | some b =>
    rw [trimAfterLoad_eq hb] at h
    split at h
    · next hlong => exact .inr ⟨b, rfl, hlong.2, (Option.some.inj h).symm⟩
    · exact .inl (Option.some.inj h).symm

/-- `scroll_down` without its output. -/
theorem scrollDown_def (lineCount : Nat) :
    v.scrollDown fs height lineCount = (do
      let nextPosition := usizeAdd v.startOffset (usizeMul lineCount 16)
      let (v, goesOn) ← v.loadForScroll fs height nextPosition
      let b ← v.current
      if !goesOn ∨ nextPosition ≥ b.data.length then some v
      else
        let v := { v with startOffset := nextPosition }
        if lineCount > v.size.2 - 1 then v.draw fs else v.drawRows fs) := rfl

/-- `scroll_up` without its output. -/
theorem scrollUp_def (lineCount : Nat) :
    v.scrollUp fs lineCount =
      if v.startOffset < usizeMul 0x10 lineCount then some v
      else
        let v := { v with startOffset := v.startOffset - usizeMul 0x10 lineCount }
        if lineCount > v.size.2 - 1 then v.draw fs else v.drawRows fs := rfl

/-- `maybe_update_offset` without its output. -/
theorem maybeUpdateOffset_def :
    v.maybeUpdateOffset fs height = (do
      let b ← v.current
      if b.data = [] then some { v with startOffset := 0 }
      else
        let main ← b.selection.main
        let mainCursorOffset := main.caret
        let visible := v.visibleBytes b.data.length
        let bytesPerLine := asIsize v.bytesPerLine
        let scroll (delta : Int) : Option (HexView X) :=
          if delta < 0 then
            let lineDelta := (isizeAdd (isizeSub delta bytesPerLine) 1).tdiv bytesPerLine
            v.scrollUp fs (asUsize lineDelta.natAbs)
          else
            let lineDelta := (isizeSub (isizeAdd delta bytesPerLine) 1).tdiv bytesPerLine
            v.scrollDown fs height (asUsize lineDelta)
        if mainCursorOffset < visible.start then
          scroll (isizeSub (asIsize mainCursorOffset) (asIsize visible.start))
        else if mainCursorOffset ≥ visible.stop then
          scroll (isizeSub (asIsize mainCursorOffset) (isizeSub (asIsize visible.stop) 1))
        else some v) := rfl

/-- `maybe_update_offset_and_draw` without its output. -/
theorem maybeUpdateOffsetAndDraw_def :
    v.maybeUpdateOffsetAndDraw fs = (do
      let b ← v.current
      let main ← b.selection.main
      let mainCursorOffset := main.caret
      let line := mainCursorOffset - mainCursorOffset % v.bytesPerLine
      let visible := v.visibleBytes b.data.length
      let startOffset :=
        if mainCursorOffset < visible.start then line
        else if mainCursorOffset ≥ visible.stop then
          usizeAdd line v.bytesPerLine - (v.size.2 - 1) * v.bytesPerLine
        else v.startOffset
      draw fs { v with startOffset }) := rfl

/-- Which rows are drawn does not matter. -/
theorem transitionDirtyBytes_changeInPlace (intervals : List Interval) :
    v.transitionDirtyBytes fs height (.changeInPlace intervals) =
      (v.maybeUpdateOffset fs height).bind (drawRows fs) := by
  refine congrArg (Option.bind (v.maybeUpdateOffset fs height)) (funext fun v' ↦ ?_)
  cases hb : v'.current with
  | none => simp only [dirtyRows, hb, drawRows_eq_draw, draw_eq, ensureVisibleData]; rfl
  | some b => simp only [dirtyRows, hb]; rfl

/-- What the view does with an event that the mode leaves to it. -/
inductive Handles : Event → HexView X → Prop
  | resized {width rows : Nat} {v' : HexView X} :
    draw fs { v with size := (width, rows) } = some v' → Handles (.resize width rows) v'
  | down {key : KeyEvent} {loaded : Bool} {v₁ v₂ v₃ v' : HexView X} :
    Session.scrollKey key = some .down →
    v.loadNextChunk fs (chunkSize height) = some (v₁, loaded) → v₁.moveCursors .down = some v₂ →
    v₂.scrollDown fs height 1 = some v₃ → v₃.draw fs = some v' → Handles (.key key) v'
  | up {key : KeyEvent} {v₁ v₂ v' : HexView X} :
    Session.scrollKey key = some .up → v.moveCursors .up = some v₁ →
    v₁.scrollUp fs 1 = some v₂ → v₂.draw fs = some v' → Handles (.key key) v'
  | key {key : KeyEvent} : Session.scrollKey key = none → Handles (.key key) v
  | mouse : Handles .mouse v

/-- What the view itself does with an event. -/
theorem handles_of_handleEventDefault {evt : Event} {v' : HexView X}
    (h : v.handleEventDefault fs height evt = some v') : Handles fs height v evt v' := by
  cases evt with
  | mouse =>
    obtain rfl := Option.some.inj h
    exact .mouse
  | resize width rows => exact .resized h
  | key key =>
    cases hkey : Session.scrollKey key with
    | none =>
      simp only [handleEventDefault, Painter.handleEventDefault, hkey] at h
      obtain rfl := Option.some.inj h
      exact .key hkey
    | some direction =>
      simp only [handleEventDefault, Painter.handleEventDefault, hkey] at h
      cases direction with
      | down =>
        obtain ⟨⟨v₁, loaded⟩, hl, h⟩ := Option.bind_eq_some_iff.mp h
        obtain ⟨v₂, hm, h⟩ := Option.bind_eq_some_iff.mp h
        obtain ⟨v₃, hs, h⟩ := Option.bind_eq_some_iff.mp h
        exact .down hkey hl hm hs h
      | up =>
        obtain ⟨v₁, hm, h⟩ := Option.bind_eq_some_iff.mp h
        obtain ⟨v₂, hs, h⟩ := Option.bind_eq_some_iff.mp h
        exact .up hkey hm hs h
      | left | right =>
        rcases Session.of_scrollKey hkey with heq | heq
        · cases (Prod.mk.inj heq).2
        · cases (Prod.mk.inj heq).2

end HexView

namespace Editor

variable {E : SearchEngine} {height : Nat} {evt : Event} {e e' : Editor X}

/-- A round of the event loop, without output. -/
def step (E : SearchEngine) (height : Nat) (evt : Event) (e : Editor X) : Option (Editor X) :=
  Painter.silent.step E height evt e

/-- The first drawing, without output. -/
def started (fs : FileSystem) (filename : Option Path) (size : Nat × Nat) : Option (Editor X) :=
  Painter.silent.started fs filename size

/-- A file is opened. -/
def opened (fs : FileSystem) (path : Path) (size : Nat × Nat) : Option (Editor X) :=
  started fs (some path) size

/-- The mode handles the event, or leaves it to the view. -/
theorem step_of_ne (hmode : e.view.mode ≠ .quitting) :
    step E height evt e =
      (e.view.mode.transition E evt { fs := e.fs, buffers := e.view.buffrCollection }
        e.view.bytesPerLine).bind fun
        | some (t, ws) =>
          (HexView.transition ws.fs height { e.view with buffrCollection := ws.buffers } t).map
            fun view ↦ { fs := ws.fs, view }
        | none => (e.view.handleEventDefault e.fs height evt).map fun view ↦ { e with view } :=
  Painter.silent.step_of_statusline (fun _ ↦ rfl) hmode

/-- An editor that is quitting takes no event. -/
theorem mode_ne_quitting_of_step (h : step E height evt e = some e') :
    e.view.mode ≠ .quitting := by
  intro hmode
  rw [step, Painter.step, if_pos hmode] at h
  cases h

/-- A round is a transition of the mode, or left to the view. -/
theorem round_cases (h : step E height evt e = some e') :
    (∃ t ws, e.view.mode.transition E evt { fs := e.fs, buffers := e.view.buffrCollection }
        e.view.bytesPerLine = some (some (t, ws)) ∧ e'.fs = ws.fs ∧
      { e.view with buffrCollection := ws.buffers }.transition ws.fs height t = some e'.view) ∨
    e.view.mode.transition E evt { fs := e.fs, buffers := e.view.buffrCollection }
        e.view.bytesPerLine = some none ∧ e'.fs = e.fs ∧
      e.view.handleEventDefault e.fs height evt = some e'.view := by
  rw [step_of_ne (mode_ne_quitting_of_step h)] at h
  obtain ⟨o, ho, h⟩ := Option.bind_eq_some_iff.mp h
  cases o with
  | none =>
    obtain ⟨view, hv, rfl⟩ := Option.map_eq_some_iff.mp h
    exact .inr ⟨ho, rfl, hv⟩
  | some p =>
    obtain ⟨view, hv, rfl⟩ := Option.map_eq_some_iff.mp h
    exact .inl ⟨p.1, p.2, ho, rfl, hv⟩

/-- A round of the event loop, with the height that the terminal reports. -/
def stepAt (E : SearchEngine) (input : Nat × Event) (e : Editor X) : Option (Editor X) :=
  e.step E input.1 input.2

end Editor

end Tofu
