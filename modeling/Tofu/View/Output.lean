import Tofu.View.Painter
import Tofu.View.Picture
import Tofu.View.StatusLine

/-!
# The event loop with its output

The event loop of `Tofu.View.HexView` on a terminal: what it queues is run on a display
(`src/src/hex_view/view.rs:1244–1746`). Rows are scrolled by the terminal and only those that
come in sight, and those with lines about the current bytes, are drawn again.
-/

namespace Tofu

open Rope

variable {X : XiRope UInt8}

/-- The terminal, and the column from which the prompt was shown last, `view.rs:378`. -/
structure Console where
  display : Display Color
  lastVisiblePromptCol : Nat

/-- What is queued is run on the display. -/
def Console.queue (c : Console) (ops : List TermOp) : Console :=
  { c with display := c.display.run ops }

/-- `view.rs:1154–1195` on the terminal. -/
def HexView.drawStatuslineOn (v : HexView X) (c : Console) : Option Console := do
  let (ops, lastVisiblePromptCol) ← v.drawStatusline c.lastVisiblePromptCol
  some { display := c.display.run ops, lastVisiblePromptCol }

namespace Console

variable (G : DrawEnv)

/-- Prints to the terminal. One that is resized may show anything. -/
def painter : Painter X (StateT Console Option) where
  rows invalidatedRows v c := (v.printFrame G invalidatedRows).map fun ops ↦ ((), c.queue ops)
  statusline v c := (v.drawStatuslineOn c).map fun c ↦ ((), c)
  rowsUp v lineCount c :=
    some ((), c.queue [.scrollUp lineCount, .moveTo 0 (v.size.2 - 2), .clearCurrentLine])
  rowsDown v lineCount c :=
    some ((), c.queue [.scrollDown lineCount, .moveTo 0 (v.size.2 - 1), .clearCurrentLine])
  resized width height c := some ((), { c with display := { c.display with width, height } })

/-! ## The view does not depend on the terminal -/

/-- What comes of an action on the terminal is what comes of the action without one, if it does
not panic. -/
def Simulates {α : Type} (x : StateT Console Option α) (o : Option α) : Prop :=
  ∀ c a c', x c = some (a, c') → o = some a

section Run

variable {α β : Type}

/-- What is printed in two steps is printed one after the other. -/
theorem bind_eq_some {x : StateT Console Option α} {f : α → StateT Console Option β}
    {c : Console} {r : β × Console} (h : (x >>= f) c = some r) :
    ∃ a c', x c = some (a, c') ∧ f a c' = some r := by
  obtain ⟨⟨a, c'⟩, hx, hf⟩ := Option.bind_eq_some_iff.mp h
  exact ⟨a, c', hx, hf⟩

/-- A step without output leaves what was printed. -/
@[simp] theorem lift_bind (o : Option α) (f : α → StateT Console Option β) (c : Console) :
    ((liftM o : StateT Console Option α) >>= f) c = o.bind fun a ↦ f a c := by
  cases o <;> rfl

/-- Returning a value prints nothing. -/
@[simp] theorem pure_run (a : α) (c : Console) :
    (pure a : StateT Console Option α) c = some (a, c) := rfl

/-- A choice prints what is chosen. -/
@[simp] theorem ite_run {p : Prop} [Decidable p] (x y : StateT Console Option α) (c : Console) :
    (if p then x else y) c = if p then x c else y c := ite_apply p x y c

end Run

/-- Whatever is printed, the view is the one without a terminal. -/
theorem simulation : Simulation Simulates where
  pure a c a' c' h := by rw [(Prod.mk.inj (Option.some.inj h)).1]
  lift o c a c' h := by
    cases o with
    | none => cases h
    | some a₀ => rw [(Prod.mk.inj (Option.some.inj h)).1]
  bind hx hf c b c' h := by
    obtain ⟨a, c₁, ha, hb⟩ := bind_eq_some h
    rw [hx c a c₁ ha, Option.bind_some]
    exact hf a c₁ b c' hb
  painted _ _ _ _ _ := rfl

end Console

/-! ## What is queued -/

namespace Console

variable {G : DrawEnv} {fs : FileSystem} {height : Nat} {v v' : HexView X} {c c' : Console}

/-- The rows are printed and then the status line. -/
theorem draw_eq_some (h : (painter G).draw fs v c = some (v', c')) :
    v.draw fs = some v' ∧ ∃ ops, v'.printFrame G none = some ops ∧
      v'.drawStatuslineOn (c.queue ops) = some c' := by
  refine ⟨simulation.draw (painter G) fs v c v' c' h, ?_⟩
  rw [Painter.draw, lift_bind] at h
  obtain ⟨v₁, -, h⟩ := Option.bind_eq_some_iff.mp h
  obtain ⟨_, c₁, hrows, h⟩ := bind_eq_some h
  obtain ⟨_, c₂, hstatus, h⟩ := bind_eq_some h
  obtain ⟨rfl, rfl⟩ := Prod.mk.inj (Option.some.inj h)
  obtain ⟨ops, hops, heq⟩ := Option.map_eq_some_iff.mp hrows
  obtain ⟨c₃, hline, heq'⟩ := Option.map_eq_some_iff.mp hstatus
  obtain rfl := (Prod.mk.inj heq).2
  obtain rfl := (Prod.mk.inj heq').2
  exact ⟨ops, hops, hline⟩

/-- Only these rows are printed. -/
theorem drawRows_eq_some {invalidatedRows : List Nat}
    (h : (painter G).drawRows fs v invalidatedRows c = some (v', c')) :
    v.drawRows fs = some v' ∧ ∃ ops, v'.printFrame G (some invalidatedRows) = some ops ∧
      c' = c.queue ops := by
  refine ⟨simulation.drawRows (painter G) fs v invalidatedRows c v' c' h, ?_⟩
  rw [Painter.drawRows, lift_bind] at h
  obtain ⟨v₁, -, h⟩ := Option.bind_eq_some_iff.mp h
  obtain ⟨_, c₁, hrows, h⟩ := bind_eq_some h
  obtain ⟨rfl, rfl⟩ := Prod.mk.inj (Option.some.inj h)
  obtain ⟨ops, hops, heq⟩ := Option.map_eq_some_iff.mp hrows
  exact ⟨ops, hops, (Prod.mk.inj heq).2.symm⟩

/-- `scroll_down` with its output. -/
theorem scrollDown_run (lineCount : Nat) :
    (painter G).scrollDown fs height v lineCount c = (do
      let nextPosition := usizeAdd v.startOffset (usizeMul lineCount 16)
      let (v, goesOn) ← v.loadForScroll fs height nextPosition
      let b ← v.current
      if !goesOn ∨ nextPosition ≥ b.data.length then some (v, c)
      else
        let v := { v with startOffset := nextPosition }
        if lineCount > v.size.2 - 1 then (painter G).draw fs v c
        else
          (painter G).drawRows fs v (List.range' (v.size.2 - 1 - lineCount) lineCount ++
            List.range BytePropertiesFormatter.height)
            (c.queue [.scrollUp lineCount, .moveTo 0 (v.size.2 - 2), .clearCurrentLine])) := by
  simp only [Painter.scrollDown, lift_bind, Option.bind_eq_bind]
  refine congrArg (Option.bind _) (funext fun p ↦ congrArg (Option.bind _) (funext fun b ↦ ?_))
  rw [ite_run, ite_run]
  rfl

/-- `scroll_up` with its output. -/
theorem scrollUp_run (lineCount : Nat) :
    (painter G).scrollUp fs v lineCount c =
      if v.startOffset < usizeMul 0x10 lineCount then some (v, c)
      else
        let v := { v with startOffset := v.startOffset - usizeMul 0x10 lineCount }
        if lineCount > v.size.2 - 1 then (painter G).draw fs v c
        else
          (painter G).drawRows fs v
            (List.range ((lineCount + BytePropertiesFormatter.height) % 2 ^ 16))
            (c.queue [.scrollDown lineCount, .moveTo 0 (v.size.2 - 1), .clearCurrentLine]) := by
  rw [Painter.scrollUp, ite_run, ite_run]
  rfl

/-- `maybe_update_offset` with its output. -/
theorem maybeUpdateOffset_run :
    (painter G).maybeUpdateOffset fs height v c = (do
      let b ← v.current
      if b.data = [] then some ({ v with startOffset := 0 }, c)
      else
        let main ← b.selection.main
        let mainCursorOffset := main.caret
        let visible := v.visibleBytes b.data.length
        let bytesPerLine := asIsize v.bytesPerLine
        let scroll (delta : Int) : Option (HexView X × Console) :=
          if delta < 0 then
            let lineDelta := (isizeAdd (isizeSub delta bytesPerLine) 1).tdiv bytesPerLine
            (painter G).scrollUp fs v (asUsize lineDelta.natAbs) c
          else
            let lineDelta := (isizeSub (isizeAdd delta bytesPerLine) 1).tdiv bytesPerLine
            (painter G).scrollDown fs height v (asUsize lineDelta) c
        if mainCursorOffset < visible.start then
          scroll (isizeSub (asIsize mainCursorOffset) (asIsize visible.start))
        else if mainCursorOffset ≥ visible.stop then
          scroll (isizeSub (asIsize mainCursorOffset) (isizeSub (asIsize visible.stop) 1))
        else some (v, c)) := by
  simp only [Painter.maybeUpdateOffset, lift_bind, Option.bind_eq_bind]
  refine congrArg (Option.bind _) (funext fun b ↦ ?_)
  rw [ite_run, lift_bind]
  refine congrArg (ite _ _) (congrArg (Option.bind _) (funext fun main ↦ ?_))
  simp only [ite_run, pure_run]

/-- The view is moved to the cursor, and the rows of what changed are printed. -/
theorem changeInPlace_eq_some {intervals : List Interval}
    (h : (painter G).transitionDirtyBytes fs height v (.changeInPlace intervals) c =
      some (v', c')) :
    ∃ v₁ c₁ rows, (painter G).maybeUpdateOffset fs height v c = some (v₁, c₁) ∧
      v₁.dirtyRows intervals = some rows ∧ (painter G).drawRows fs v₁ rows c₁ = some (v', c') := by
  obtain ⟨v₁, c₁, hmove, h⟩ := bind_eq_some h
  rw [lift_bind] at h
  obtain ⟨rows, hrows, h⟩ := Option.bind_eq_some_iff.mp h
  exact ⟨v₁, c₁, rows, hmove, hrows, h⟩

/-- The offset is moved to the cursor and the view is drawn. -/
theorem changeLength_eq_some
    (h : (painter G).transitionDirtyBytes fs height v .changeLength c = some (v', c')) :
    ∃ startOffset, (painter G).draw fs { v with startOffset } c = some (v', c') := by
  rw [Painter.transitionDirtyBytes, Painter.maybeUpdateOffsetAndDraw, lift_bind] at h
  obtain ⟨b, -, h⟩ := Option.bind_eq_some_iff.mp h
  rw [lift_bind] at h
  obtain ⟨main, -, h⟩ := Option.bind_eq_some_iff.mp h
  exact ⟨_, h⟩

end Console

/-- The editor and the terminal it runs on. -/
structure Running (X : XiRope UInt8) where
  editor : Editor X
  console : Console

namespace Running

variable (G : DrawEnv)

/-- The first drawing on the terminal. -/
def started (fs : FileSystem) (filename : Option Path) (size : Nat × Nat) (c : Console) :
    Option (Running X) :=
  ((Console.painter G).started fs filename size c).map fun (editor, console) ↦
    { editor, console }

/-- A round of the event loop on the terminal. -/
def step (E : SearchEngine) (input : Nat × Event) (s : Running X) : Option (Running X) :=
  ((Console.painter G).step E input.1 input.2 s.editor s.console).map fun (editor, console) ↦
    { editor, console }

variable {G} {E : SearchEngine}

/-- The buffers are loaded and drawn. -/
theorem started_eq_some {fs : FileSystem} {filename : Option Path} {size : Nat × Nat}
    {c : Console} {s : Running X} (hs : started G fs filename size c = some s) :
    ∃ buffers, Editor.initialBuffers fs filename size.2 = some buffers ∧
      (Console.painter G).draw fs (HexView.withBuffrCollection buffers size) c =
        some (s.editor.view, s.console) ∧ s.editor.fs = fs := by
  obtain ⟨⟨editor, console⟩, h, rfl⟩ := Option.map_eq_some_iff.mp hs
  rw [Painter.started, Console.lift_bind] at h
  obtain ⟨buffers, hb, h⟩ := Option.bind_eq_some_iff.mp h
  obtain ⟨view, c', hd, h⟩ := Console.bind_eq_some h
  obtain ⟨rfl, rfl⟩ := Prod.mk.inj (Option.some.inj h)
  exact ⟨buffers, hb, hd, rfl⟩

/-- A round of the event loop: the mode handles the event, or the view does; then the status line
is drawn. -/
theorem step_cases {input : Nat × Event} {s s' : Running X} (hs : s.step G E input = some s') :
    s.editor.stepAt E input = some s'.editor ∧
    ∃ c, s'.editor.view.drawStatuslineOn c = some s'.console ∧
      ((∃ t ws, s.editor.view.mode.transition E input.2
          { fs := s.editor.fs, buffers := s.editor.view.buffrCollection }
          s.editor.view.bytesPerLine = some (some (t, ws)) ∧
        (Console.painter G).transition ws.fs input.1
          { s.editor.view with buffrCollection := ws.buffers } t s.console =
            some (s'.editor.view, c)) ∨
      (s.editor.view.mode.transition E input.2
          { fs := s.editor.fs, buffers := s.editor.view.buffrCollection }
          s.editor.view.bytesPerLine = some none ∧
        (Console.painter G).handleEventDefault s.editor.fs input.1 s.editor.view input.2
          s.console = some (s'.editor.view, c))) := by
  obtain ⟨⟨editor, console⟩, h, rfl⟩ := Option.map_eq_some_iff.mp hs
  refine ⟨Console.simulation.step (Console.painter G) input.1 E input.2 s.editor s.console editor
    console h, ?_⟩
  have hstatus {view : HexView X} {c : Console}
      (h : (Console.painter G).statusline view c = some ((), console)) :
      view.drawStatuslineOn c = some console := by
    obtain ⟨c', hc, heq⟩ := Option.map_eq_some_iff.mp h
    rw [hc, (Prod.mk.inj heq).2]
  unfold Painter.step at h
  split at h
  · cases h
  · rw [Console.lift_bind] at h
    obtain ⟨o, ho, h⟩ := Option.bind_eq_some_iff.mp h
    cases o with
    | none =>
      obtain ⟨view, c, hview, h⟩ := Console.bind_eq_some h
      obtain ⟨_, c', hline, h⟩ := Console.bind_eq_some h
      obtain ⟨rfl, rfl⟩ := Prod.mk.inj (Option.some.inj h)
      exact ⟨c, hstatus hline, .inr ⟨ho, hview⟩⟩
    | some p =>
      obtain ⟨view, c, hview, h⟩ := Console.bind_eq_some h
      obtain ⟨_, c', hline, h⟩ := Console.bind_eq_some h
      obtain ⟨rfl, rfl⟩ := Prod.mk.inj (Option.some.inj h)
      exact ⟨c, hstatus hline, .inl ⟨p.1, p.2, ho, hview⟩⟩

end Running

end Tofu
