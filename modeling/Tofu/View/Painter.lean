import Tofu.View.Memory
import Tofu.View.Rows

/-!
# Events with what they draw

The event loop of `Tofu.View.HexView` with output. What is printed does not change the view: an
event that comes to a view with a painter comes to the same one without output. The converse
holds where the painter does not panic, and every function prints the view that it ends with.
-/

namespace Tofu

open Rope

variable {X : XiRope UInt8}

/-! ## What is printed does not change the view -/

/-- A relation between computations with output and without, for every kind of value, that holds
whatever is printed. -/
structure Simulation {m : Type → Type} [Monad m] [MonadLiftT Option m]
    (R : ∀ {α : Type}, m α → Option α → Prop) : Prop where
  pure : ∀ {α : Type} (a : α), R (Pure.pure a) (some a)
  lift : ∀ {α : Type} (o : Option α), R (liftM o) o
  bind : ∀ {α β : Type} {x : m α} {o : Option α} {f : α → m β} {g : α → Option β}, R x o →
    (∀ a, R (f a) (g a)) → R (x >>= f) (o.bind g)
  painted : ∀ x : m Unit, R x (some ())

namespace Simulation

variable {m : Type → Type} [Monad m] [MonadLiftT Option m]
  {R : ∀ {α : Type}, m α → Option α → Prop} (hR : Simulation R) (P : Painter X m)
  (fs : FileSystem) (height : Nat) (v : HexView X)
include hR

omit [Monad m] [MonadLiftT Option m] hR in
private theorem ite {α : Type} {p : Prop} [Decidable p] {x x' : m α} {o o' : Option α} (h : R x o)
    (h' : R x' o') : R (if p then x else x') (if p then o else o') := by
  split
  · exact h
  · exact h'

private theorem then_ {α : Type} (x : m Unit) {y : m α} {o : Option α} (h : R y o) :
    R (x >>= fun _ ↦ y) o := hR.bind (hR.painted x) fun _ ↦ h

/-- Drawing comes to the view that is drawn without output. -/
theorem draw : R (P.draw fs v) (v.draw fs) :=
  hR.bind (hR.lift _) fun v ↦ hR.then_ _ (hR.then_ _ (hR.pure v))

/-- So does drawing some rows. -/
theorem drawRows (rows : List Nat) : R (P.drawRows fs v rows) (v.drawRows fs) :=
  hR.bind (hR.lift _) fun v ↦ hR.then_ _ (hR.pure v)

/-- So does scrolling down. -/
theorem scrollDown (lineCount : Nat) :
    R (P.scrollDown fs height v lineCount) (v.scrollDown fs height lineCount) := by
  refine hR.bind (hR.lift _) fun p ↦ hR.bind (hR.lift _) fun b ↦
    ite (hR.pure _) (ite (hR.draw P fs _) ?_)
  exact hR.then_ _ (hR.drawRows P fs _ _)

/-- So does scrolling up. -/
theorem scrollUp (lineCount : Nat) : R (P.scrollUp fs v lineCount) (v.scrollUp fs lineCount) :=
  ite (hR.pure v) (ite (hR.draw P fs _) (hR.then_ _ (hR.drawRows P fs _ _)))

/-- So does bringing the cursor into view. -/
theorem maybeUpdateOffset : R (P.maybeUpdateOffset fs height v)
    (v.maybeUpdateOffset fs height) := by
  have hscroll {p : Prop} [Decidable p] (up down : Nat) :
      R (if p then P.scrollUp fs v up else P.scrollDown fs height v down)
        (if p then v.scrollUp fs up else v.scrollDown fs height down) :=
    ite (hR.scrollUp P fs v up) (hR.scrollDown P fs height v down)
  refine hR.bind (hR.lift _) fun b ↦ ite (hR.pure _) (hR.bind (hR.lift _) fun main ↦
    ite (hscroll _ _) (ite (hscroll _ _) (hR.pure v)))

/-- So does bringing it into view after a change of length. -/
theorem maybeUpdateOffsetAndDraw :
    R (P.maybeUpdateOffsetAndDraw fs v) (v.maybeUpdateOffsetAndDraw fs) :=
  hR.bind (hR.lift _) fun _ ↦ hR.bind (hR.lift _) fun _ ↦ hR.draw P fs _

/-- So does what follows a change of the data. -/
theorem transitionDirtyBytes (dirty : DirtyBytes) :
    R (P.transitionDirtyBytes fs height v dirty) (v.transitionDirtyBytes fs height dirty) := by
  cases dirty with
  | changeInPlace intervals =>
    exact hR.bind (hR.maybeUpdateOffset P fs height v) fun v ↦ hR.bind (hR.lift _) fun rows ↦
      hR.drawRows P fs v rows
  | changeLength => exact hR.maybeUpdateOffsetAndDraw P fs v

private theorem transition (t : ModeTransition) :
    R (P.transition fs height v t) (v.transition fs height t) := by
  cases t with
  | none | newMode | modeAndInfo => exact hR.pure _
  | dirtyBytes dirty => exact hR.transitionDirtyBytes P fs height _ dirty
  | modeAndDirtyBytes mode dirty => exact hR.transitionDirtyBytes P fs height _ dirty

private theorem handleEventDefault (evt : Event) :
    R (P.handleEventDefault fs height v evt) (v.handleEventDefault fs height evt) := by
  cases evt with
  | resize width rows => exact hR.then_ _ (hR.draw P fs _)
  | mouse => exact hR.pure v
  | key key =>
    simp only [HexView.handleEventDefault, Painter.handleEventDefault]
    split
    · exact hR.bind (hR.lift _) fun p ↦ hR.bind (hR.lift _) fun v ↦
        hR.bind (hR.scrollDown P fs height v 1) fun v ↦ hR.draw P fs v
    · exact hR.bind (hR.lift _) fun v ↦ hR.bind (hR.scrollUp P fs v 1) fun v ↦ hR.draw P fs v
    · exact hR.pure v

/-- An event comes to the editor that it comes to without output. -/
theorem step (E : SearchEngine) (evt : Event) (e : Editor X) :
    R (P.step E height evt e) (e.step E height evt) := by
  refine ite (hR.lift none) (hR.bind (hR.lift _) fun outcome ↦ ?_)
  cases outcome with
  | none =>
    exact hR.bind (hR.handleEventDefault P e.fs height e.view evt) fun view ↦
      hR.then_ _ (hR.pure _)
  | some p =>
    exact hR.bind (hR.transition P p.2.fs height _ p.1) fun view ↦ hR.then_ _ (hR.pure _)

end Simulation

/-! ## Rows that are printed -/

/-- Prints rows of a view, all of them or those in a set, or panics. -/
abbrev RowPrinter (X : XiRope UInt8) := Option (List Nat) → HexView X → Option Unit

/-- Nothing but the rows is printed. -/
def RowPrinter.painter (paint : RowPrinter X) : Painter X Option :=
  { Painter.silent with rows := paint }

/-- The view is printed, whichever rows are asked for. -/
def RowPrinter.Prints (paint : RowPrinter X) (v : HexView X) : Prop :=
  ∀ rows, paint rows v = some ()

namespace Editor

/-- The first drawing, with the rows that are printed. -/
def startedWith (paint : RowPrinter X) (fs : FileSystem) (filename : Option Path)
    (size : Nat × Nat) : Option (Editor X) :=
  paint.painter.started fs filename size

/-- A round of the event loop, with the rows that are printed. -/
def stepWith (paint : RowPrinter X) (E : SearchEngine) (height : Nat) (evt : Event)
    (e : Editor X) : Option (Editor X) :=
  paint.painter.step E height evt e

end Editor

namespace RowPrinter

variable {paint : RowPrinter X} {fs : FileSystem} {height : Nat} {v v' : HexView X}

/-- What is drawn is printed. -/
theorem draw_eq_bind (paint : RowPrinter X) (fs : FileSystem) (v : HexView X) :
    paint.painter.draw fs v = (v.draw fs).bind fun v ↦ (paint none v).map fun _ ↦ v := by
  simp only [HexView.draw_eq, Option.map_eq_bind]
  rfl

private theorem drawRows_eq_bind (paint : RowPrinter X) (fs : FileSystem) (v : HexView X)
    (rows : List Nat) :
    paint.painter.drawRows fs v rows =
      (v.drawRows fs).bind fun v ↦ (paint (some rows) v).map fun _ ↦ v := by
  simp only [HexView.drawRows_eq_draw, HexView.draw_eq, Option.map_eq_bind]
  rfl

/-- A view that can be printed is drawn. -/
theorem draw_of_prints (h : v.draw fs = some v') (hp : paint.Prints v') :
    paint.painter.draw fs v = some v' := by
  rw [draw_eq_bind, h, Option.bind_some, hp, Option.map_some]

private theorem drawRows_of_prints (h : v.drawRows fs = some v') (hp : paint.Prints v')
    (rows : List Nat) : paint.painter.drawRows fs v rows = some v' := by
  rw [drawRows_eq_bind, h, Option.bind_some, hp, Option.map_some]

private theorem redraw_of_prints {p : Prop} [Decidable p] {rows : List Nat}
    (h : (if p then v.draw fs else v.drawRows fs) = some v') (hp : paint.Prints v') :
    (if p then paint.painter.draw fs v else paint.painter.drawRows fs v rows) = some v' := by
  by_cases hall : p
  · rw [if_pos hall] at h ⊢
    exact draw_of_prints h hp
  · rw [if_neg hall] at h ⊢
    exact drawRows_of_prints h hp rows

/-- Scrolling up draws only the view it ends with. -/
theorem scrollUp_of_prints {lineCount : Nat} (h : v.scrollUp fs lineCount = some v')
    (hp : paint.Prints v') : paint.painter.scrollUp fs v lineCount = some v' := by
  rw [HexView.scrollUp_def] at h
  unfold Painter.scrollUp
  split at h
  · next hlt =>
    rw [if_pos hlt]
    exact h
  · next hlt =>
    rw [if_neg hlt]
    exact redraw_of_prints h hp

/-- So does scrolling down. -/
theorem scrollDown_of_prints {lineCount : Nat} (h : v.scrollDown fs height lineCount = some v')
    (hp : paint.Prints v') : paint.painter.scrollDown fs height v lineCount = some v' := by
  rw [HexView.scrollDown_def] at h
  obtain ⟨⟨v₁, goesOn⟩, hl, h⟩ := Option.bind_eq_some_iff.mp h
  obtain ⟨b, hb, h⟩ := Option.bind_eq_some_iff.mp h
  refine Option.bind_eq_some_iff.mpr ⟨(v₁, goesOn), hl, Option.bind_eq_some_iff.mpr ⟨b, hb, ?_⟩⟩
  split at h
  · next hno =>
    rw [if_pos hno]
    exact h
  · next hgo =>
    rw [if_neg hgo]
    exact redraw_of_prints h hp

private theorem maybeUpdateOffset_of_prints (h : v.maybeUpdateOffset fs height = some v')
    (hp : paint.Prints v') : paint.painter.maybeUpdateOffset fs height v = some v' := by
  rw [HexView.maybeUpdateOffset_def] at h
  obtain ⟨b, hb, h⟩ := Option.bind_eq_some_iff.mp h
  refine Option.bind_eq_some_iff.mpr ⟨b, hb, ?_⟩
  split at h
  · next hnil =>
    rw [if_pos hnil]
    exact h
  · next hne =>
    obtain ⟨main, hm, h⟩ := Option.bind_eq_some_iff.mp h
    have hscroll {p : Prop} [Decidable p] {up down : Nat}
        (h : (if p then v.scrollUp fs up else v.scrollDown fs height down) = some v') :
        (if p then paint.painter.scrollUp fs v up
          else paint.painter.scrollDown fs height v down) = some v' := by
      by_cases hup : p
      · rw [if_pos hup] at h ⊢
        exact scrollUp_of_prints h hp
      · rw [if_neg hup] at h ⊢
        exact scrollDown_of_prints h hp
    rw [if_neg hne]
    refine Option.bind_eq_some_iff.mpr ⟨main, hm, ?_⟩
    dsimp only at h ⊢
    split at h
    · next habove =>
      rw [if_pos habove]
      exact hscroll h
    · next habove =>
      rw [if_neg habove]
      split at h
      · next hbelow =>
        rw [if_pos hbelow]
        exact hscroll h
      · next hbelow =>
        rw [if_neg hbelow]
        exact h

private theorem maybeUpdateOffsetAndDraw_of_prints (h : v.maybeUpdateOffsetAndDraw fs = some v')
    (hp : paint.Prints v') : paint.painter.maybeUpdateOffsetAndDraw fs v = some v' := by
  rw [HexView.maybeUpdateOffsetAndDraw_def] at h
  obtain ⟨b, hb, h⟩ := Option.bind_eq_some_iff.mp h
  obtain ⟨main, hm, h⟩ := Option.bind_eq_some_iff.mp h
  exact Option.bind_eq_some_iff.mpr
    ⟨b, hb, Option.bind_eq_some_iff.mpr ⟨main, hm, draw_of_prints h hp⟩⟩

/-- A view whose cursor was moved to is printed, before and after more is loaded. -/
theorem transitionDirtyBytes_of_prints {dirty : DirtyBytes}
    (h : v.transitionDirtyBytes fs height dirty = some v') (hp : paint.Prints v')
    (hmoved : ∀ v₁, v.maybeUpdateOffset fs height = some v₁ → v₁.drawRows fs = some v' →
      paint.Prints v₁) :
    paint.painter.transitionDirtyBytes fs height v dirty = some v' := by
  cases dirty with
  | changeInPlace intervals =>
    obtain ⟨v₁, hm, h⟩ := Option.bind_eq_some_iff.mp h
    obtain ⟨rows, hrows, hd⟩ := Option.bind_eq_some_iff.mp h
    exact Option.bind_eq_some_iff.mpr ⟨v₁, maybeUpdateOffset_of_prints hm (hmoved v₁ hm hd),
      Option.bind_eq_some_iff.mpr ⟨rows, hrows, drawRows_of_prints hd hp rows⟩⟩
  | changeLength => exact maybeUpdateOffsetAndDraw_of_prints h hp

end RowPrinter

end Tofu
